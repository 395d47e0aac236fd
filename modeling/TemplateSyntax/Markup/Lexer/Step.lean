import TemplateSyntax.Markup.CharacterReference.Match
import TemplateSyntax.Markup.Lexer.Basic

/-!
# The steps of the lexer

One function per state says what the current character, or the end of the text, does in it.
`step` chooses by the state.
-/

namespace TemplateSyntax

namespace Lexer

open CharClass (isBlank isHexDigit)

variable (l : Lexer)

/-! ## Content -/

/-- Character data between tags. -/
def onData : Option Char → Lexer
  | none => l.goto .data
  | some '<' => l.markHere.goto .tagOpen
  | some '&' => l.startReference .data
  | some '{' =>
    if l.interpolating then l.startInterpolation .data
    else (l.appendData .text '{').goto .data
  | some c => (l.appendData .text c).goto .data

/-- Character data in an element that has references but no tags. -/
def onRcdata : Option Char → Lexer
  | none => l.goto .rcdata
  | some '<' => l.markHere.goto .rcdataLessThanSign
  | some '&' => l.startReference .rcdata
  | some '{' =>
    if l.interpolating then l.startInterpolation .rcdata
    else (l.appendData .rcdataText '{').goto .rcdata
  | some c => (l.appendData .rcdataText c).goto .rcdata

/-- Character data in an element that has neither references nor tags. -/
def onRawText : Option Char → Lexer
  | none => l.goto .rawText
  | some '<' => l.markHere.goto .rawTextLessThanSign
  | some c => (l.appendData .rawText c).goto .rawText

/-- After `<`. -/
def onTagOpen : Option Char → Lexer
  | some '!' => l.goto .markupDeclarationOpen
  | some '/' => l.goto .endTagOpen
  | some '?' =>
    ((l.report .unexpectedQuestionMarkInsteadOfTagName).startTokenAt .bogusComment
      l.mark).reconsume .bogusComment
  | some c =>
    if c.isAlpha then (l.startTokenAt .tagOpen l.mark).reconsume .tagName
    else
      ((l.report .invalidFirstCharacterOfTagName).append .text "<" l.mark).reconsume .data
  | none => ((l.report .eofBeforeTagName).append .text "<" l.mark).reconsume .data

/-- After `</`. -/
def onEndTagOpen : Option Char → Lexer
  | some '>' => (l.report .missingEndTagName).goto .data
  | some c =>
    if c.isAlpha then (l.startTokenAt .endTagOpen l.mark).reconsume .tagName
    else
      ((l.report .invalidFirstCharacterOfTagName).startTokenAt .bogusComment
        l.mark).reconsume .bogusComment
  | none => ((l.report .eofBeforeTagName).append .text "</" l.mark).reconsume .data

/-- In the name of a tag. -/
def onTagName : Option Char → Lexer
  | some '/' => l.markHere.goto .selfClosingStartTag
  | some '>' => (l.oneCharToken .tagClose).goto .data
  | none => (l.report .eofInTag).goto .data
  | some c =>
    if isBlank c then (l.startBlank c).goto .beforeAttributeName
    else (l.pushChar c).goto .tagName

/-! ## End tags in text without tags -/

/-- The state after `</` in text of a kind. -/
def textEndTagOpen : LexState → LexState
  | .rcdata => .rcdataEndTagOpen
  | _ => .rawTextEndTagOpen

/-- The state in the name after `</` in text of a kind. -/
def textEndTagName : LexState → LexState
  | .rcdata => .rcdataEndTagName
  | _ => .rawTextEndTagName

/-- After `<` in the text state `s`. -/
def onTextLessThanSign (s : LexState) : Option Char → Lexer
  | some '/' =>
    l.holdBack.goto (textEndTagOpen s)
  | _ => (l.append s.textKind "<" l.mark).reconsume s

/-- After `</` in the text state `s`. -/
def onTextEndTagOpen (s : LexState) : Option Char → Lexer
  | some c =>
    if c.isAlpha then l.reconsume (textEndTagName s)
    else (l.restoreHeldBack s).reconsume s
  | none => (l.restoreHeldBack s).reconsume s

/-- In the name after `</` in the text state `s`. -/
def onTextEndTagName (s : LexState) : Option Char → Lexer
  | some c =>
    if isBlank c && l.isAppropriateEndTag then
      (l.promoteHeldBack.startBlank c).goto .beforeAttributeName
    else if c == '/' && l.isAppropriateEndTag then
      l.promoteHeldBack.markHere.goto .selfClosingStartTag
    else if c == '>' && l.isAppropriateEndTag then
      (l.promoteHeldBack.oneCharToken .tagClose).goto .data
    else if c.isAlpha then
      { l with endTagName := l.endTagName.push c }.goto (textEndTagName s)
    else (l.restoreHeldBack s).reconsume s
  | none => (l.restoreHeldBack s).reconsume s

/-! ## Attributes -/

/-- Before the name of an attribute. -/
def onBeforeAttributeName : Option Char → Lexer
  | some '/' | some '>' | none => l.reconsume .afterAttributeName
  | some '=' =>
    (((l.report .unexpectedEqualsSignBeforeAttributeName).startToken .identifier).pushChar
      '=').goto .attributeName
  | some c =>
    if isBlank c then (l.appendBlank c).goto .beforeAttributeName
    else (l.startToken .identifier).reconsume .attributeName

/-- In the name of an attribute. -/
def onAttributeName : Option Char → Lexer
  | some '/' | some '>' | none => l.reconsume .afterAttributeName
  | some '=' => (l.oneCharToken .association).goto .beforeAttributeValue
  | some c =>
    if isBlank c then l.reconsume .afterAttributeName
    else if c == '"' || c == '\'' || c == '<' then
      ((l.report .unexpectedCharacterInAttributeName).pushChar c).goto .attributeName
    else (l.pushChar c).goto .attributeName

/-- After the name of an attribute. -/
def onAfterAttributeName : Option Char → Lexer
  | some '/' => l.markHere.goto .selfClosingStartTag
  | some '=' => (l.oneCharToken .association).goto .beforeAttributeValue
  | some '>' => (l.oneCharToken .tagClose).goto .data
  | none => (l.report .eofInTag).goto .data
  | some c =>
    if isBlank c then (l.appendBlank c).goto .afterAttributeName
    else (l.startToken .identifier).reconsume .attributeName

/-- After the `=` of an attribute. -/
def onBeforeAttributeValue : Option Char → Lexer
  | some '"' => (l.startToken .literal).goto .attributeValueDoubleQuoted
  | some '\'' => (l.startToken .literal).goto .attributeValueSingleQuoted
  | some '>' => ((l.report .missingAttributeValue).oneCharToken .tagClose).goto .data
  | none => l.reconsume .attributeValueUnquoted
  | some c =>
    if isBlank c then (l.appendBlank c).goto .beforeAttributeValue
    else (l.startToken .literal).reconsume .attributeValueUnquoted

/-- In a value between quotes, where `s` is the state to stay in. -/
def onAttributeValueQuoted (quote : Char) (s : LexState) : Option Char → Lexer
  | none => (l.report .eofInTag).goto .data
  | some c =>
    if c == quote then l.endToken.goto .afterAttributeValueQuoted
    else if c == '&' then l.startReference s
    else (l.pushChar c).goto s

/-- In a value without quotes. -/
def onAttributeValueUnquoted : Option Char → Lexer
  | some '&' => l.startReference .attributeValueUnquoted
  | some '>' => (l.oneCharToken .tagClose).goto .data
  | none => (l.report .eofInTag).goto .data
  | some c =>
    if isBlank c then (l.startBlank c).goto .beforeAttributeName
    else if c == '"' || c == '\'' || c == '<' || c == '=' || c == '\x60' then
      ((l.report .unexpectedCharacterInUnquotedAttributeValue).pushChar c).goto
        .attributeValueUnquoted
    else (l.pushChar c).goto .attributeValueUnquoted

/-- After a value between quotes. -/
def onAfterAttributeValueQuoted : Option Char → Lexer
  | some '/' => l.markHere.goto .selfClosingStartTag
  | some '>' => (l.oneCharToken .tagClose).goto .data
  | none => (l.report .eofInTag).goto .data
  | some c =>
    if isBlank c then (l.startBlank c).goto .beforeAttributeName
    else (l.report .missingWhitespaceBetweenAttributes).reconsume .beforeAttributeName

/-- After a `/` in a tag. -/
def onSelfClosingStartTag : Option Char → Lexer
  | some '>' => ((l.startTokenAt .selfClosingTagClose l.mark).endToken).goto .data
  | none => (l.report .eofInTag).goto .data
  | some _ => (l.report .unexpectedSolidusInTag).reconsume .beforeAttributeName

/-! ## Comments and CDATA sections -/

/-- In a declaration or processing instruction that is skipped. -/
def onBogusComment : Option Char → Lexer
  | some '>' => l.endToken.goto .data
  | none => l.goto .data
  | some c => (l.pushChar c).goto .bogusComment

/-- After `<!`. -/
def onMarkupDeclarationOpen (char : Option Char) : Lexer :=
  if "--".toList.isPrefixOf l.cursor.here then
    ((l.skip 2).startTokenAt .comment l.mark).goto .commentStart
  else
    let cdata := "[CDATA[".toList.isPrefixOf l.cursor.here
    if cdata && l.ns.isForeign then
      ((l.skip 7).startTokenAt .cdataText l.mark).goto .cdataSection
    else
      let cause := if cdata then Cause.cdataInHtmlContent else .incorrectlyOpenedComment
      let l := (l.report cause).startTokenAt .bogusComment l.mark
      if char.isNone then l.goto .data else l.reconsume .bogusComment

/-- After `<!--`. -/
def onCommentStart : Option Char → Lexer
  | some '-' => l.goto .commentStartDash
  | some '>' => ((l.report .abruptClosingOfEmptyComment).endToken).goto .data
  | _ => l.reconsume .comment

/-- After `<!---`. -/
def onCommentStartDash : Option Char → Lexer
  | some '-' => l.goto .commentEnd
  | some '>' => ((l.report .abruptClosingOfEmptyComment).endToken).goto .data
  | none => (l.report .eofInComment).goto .data
  | some _ => (l.pushChar '-').reconsume .comment

/-- In a comment. -/
def onComment : Option Char → Lexer
  | some '<' => (l.pushChar '<').goto .commentLessThanSign
  | some '-' => l.goto .commentEndDash
  | none => (l.report .eofInComment).goto .data
  | some c => (l.pushChar c).goto .comment

/-- After `<` in a comment. -/
def onCommentLessThanSign : Option Char → Lexer
  | some '!' => (l.pushChar '!').goto .commentLessThanSignBang
  | some '<' => (l.pushChar '<').goto .commentLessThanSign
  | _ => l.reconsume .comment

/-- After `<!` in a comment. -/
def onCommentLessThanSignBang : Option Char → Lexer
  | some '-' => l.goto .commentLessThanSignBangDash
  | _ => l.reconsume .comment

/-- After `<!-` in a comment. -/
def onCommentLessThanSignBangDash : Option Char → Lexer
  | some '-' => l.goto .commentLessThanSignBangDashDash
  | _ => l.reconsume .commentEndDash

/-- After `<!--` in a comment. -/
def onCommentLessThanSignBangDashDash : Option Char → Lexer
  | some '>' | none => l.reconsume .commentEnd
  | some _ => (l.report .nestedComment).reconsume .commentEnd

/-- After `-` in a comment. -/
def onCommentEndDash : Option Char → Lexer
  | some '-' => l.goto .commentEnd
  | none => (l.report .eofInComment).goto .data
  | some _ => (l.pushChar '-').reconsume .comment

/-- After `--` in a comment. -/
def onCommentEnd : Option Char → Lexer
  | some '>' => l.endToken.goto .data
  | some '!' => l.goto .commentEndBang
  | some '-' => (l.pushChar '-').goto .commentEnd
  | none => (l.report .eofInComment).goto .data
  | some _ => (l.push "--").reconsume .comment

/-- After `--!` in a comment. -/
def onCommentEndBang : Option Char → Lexer
  | some '-' => (l.push "--!").goto .commentEndDash
  | some '>' => ((l.report .incorrectlyClosedComment).endToken).goto .data
  | none => (l.report .eofInComment).goto .data
  | some _ => (l.push "--!").reconsume .comment

/-- In a CDATA section. -/
def onCdataSection : Option Char → Lexer
  | some ']' => l.goto .cdataSectionBracket
  | none => (l.report .eofInCdata).goto .data
  | some c => (l.pushChar c).goto .cdataSection

/-- After `]` in a CDATA section. -/
def onCdataSectionBracket : Option Char → Lexer
  | some ']' => l.goto .cdataSectionEnd
  | _ => (l.pushChar ']').reconsume .cdataSection

/-- After `]]` in a CDATA section. -/
def onCdataSectionEnd : Option Char → Lexer
  | some ']' => (l.pushChar ']').goto .cdataSectionEnd
  | some '>' => l.endToken.goto .data
  | _ => (l.push "]]").reconsume .cdataSection

/-! ## Character references -/

/-- After `&`. -/
def onCharacterReference : Option Char → Lexer
  | some '#' => l.goto .numericCharacterReference
  | some c =>
    if c.isAlphanum then l.reconsume .namedCharacterReference
    else (l.flushReference "&").reconsume l.returnState
  | none => (l.flushReference "&").reconsume l.returnState

/-- At the first letter or digit after `&`.  In the value of an attribute a name that goes
without its semicolon is no reference when a letter, a digit or `=` follows. -/
def onNamedCharacterReference : Lexer :=
  match NamedReference.match? l.cursor.here with
  | none => (l.flushReference "&").reconsume .ambiguousAmpersand
  | some found =>
    let stop := l.cursor.start + found.length
    let goesOn := match (l.cursor.here.drop found.length).head? with
      | some c => c == '=' || c.isAlphanum
      | none => false
    let l' :=
      if l.returnState.isAttributeValue && !found.terminated && goesOn then
        l.flushRaw stop
      else if found.terminated then l.flushDecoded found.value stop
      else (l.reportAt .missingSemicolonAfterCharacterReference stop).flushDecoded
        found.value stop
    (l'.skip found.length).goto l.returnState

/-- In a name after `&` that means nothing. -/
def onAmbiguousAmpersand : Option Char → Lexer
  | some ';' => (l.report .unknownNamedCharacterReference).reconsume l.returnState
  | some c =>
    if c.isAlphanum then (l.flushReference (String.singleton c)).goto .ambiguousAmpersand
    else l.reconsume l.returnState
  | none => l.reconsume l.returnState

/-- After `&#`. -/
def onNumericCharacterReference : Option Char → Lexer
  | some 'x' | some 'X' => { l with charCode := 0 }.goto .hexadecimalCharacterReferenceStart
  | _ => { l with charCode := 0 }.reconsume .decimalCharacterReferenceStart

/-- Where the digits of a reference should start, which `isDigit` tells. -/
def onNumericReferenceStart (isDigit : Char → Bool) (digits : LexState) (char : Option Char) :
    Lexer :=
  if char.any isDigit then l.reconsume digits
  else
    ((l.report .absenceOfDigitsInNumericCharacterReference).flushRaw
      l.cursor.start).reconsume l.returnState

/-- What is wrong with a reference to the code point `n`. -/
def codeFault? (n : Nat) : Option Cause :=
  if n = 0 then some .nullCharacterReference
  else if 0x10ffff < n then some .characterReferenceOutsideUnicodeRange
  else if CharClass.isSurrogate n then some .surrogateCharacterReference
  else if CharClass.isNoncharacter n then some .noncharacterCharacterReference
  else if n = 0x0d || (CharClass.isControl n && n != 0x09 && n != 0x0a && n != 0x0c) then
    some .controlCharacterReference
  else none

/-- The character that a reference to the code point `n` means. -/
def codeCharacter (n : Nat) : Char :=
  if n = 0 || 0x10ffff < n || CharClass.isSurrogate n then '\ufffd'
  else (CharClass.codePageReplacement? n).getD (Char.ofNat n)

/-- Ends a reference of digits before a template index. -/
def finishNumericReference (stop : Nat) : Lexer :=
  let l' := match codeFault? l.charCode with
    | some cause => l.report cause
    | none => l
  l'.flushDecoded (String.singleton (codeCharacter l.charCode)) stop

/-- Appends a digit to the numeral of a reference, whose value stops to grow above the last code
point. -/
def addDigit (radix digit : Nat) : Lexer :=
  let value := l.charCode * radix + digit
  { l with
    charCode := min value 0x110000
    breaches := Breach.expect (value < Offset.limit) .overflow ++ l.breaches }

/-- In the digits of a reference. -/
def onNumericReferenceDigits (isDigit : Char → Bool) (radix : Nat) (s : LexState) :
    Option Char → Lexer
  | some c =>
    if isDigit c then
      (l.addDigit radix (CharClass.digitValue c)).goto s
    else if c == ';' then (l.finishNumericReference l.cursor.index).goto l.returnState
    else
      ((l.report .missingSemicolonAfterCharacterReference).finishNumericReference
        l.cursor.start).reconsume l.returnState
  | none =>
    ((l.report .missingSemicolonAfterCharacterReference).finishNumericReference
      l.cursor.start).reconsume l.returnState

/-! ## Interpolations -/

/-- After one opening brace. -/
def onInterpolationStart : Option Char → Lexer
  | some '{' =>
    let l' := ((l.startTokenAt .interpolationStart l.mark).push "\x7b\x7b").endToken
    { l' with interpolationStart := l.mark }.goto .interpolationData
  | _ => (l.append l.outerState.textKind "\x7b" l.mark).reconsume l.outerState

/-- Between double braces. -/
def onInterpolationData : Option Char → Lexer
  | some '}' => l.markHere.goto .interpolationEnd
  | some '&' => l.startReference .interpolationData
  | none => (l.reportAt .missingInterpolationEnd l.interpolationStart).reconsume l.outerState
  | some c => (l.appendData .text c).goto .interpolationData

/-- After one closing brace. -/
def onInterpolationEnd : Option Char → Lexer
  | some '}' =>
    (((l.startTokenAt .interpolationEnd l.mark).push "\x7d\x7d").endToken).goto l.outerState
  | _ => (l.append .text "\x7d" l.mark).reconsume .interpolationData

/-- What the current character does in the current state. -/
def step : Lexer :=
  let char := l.cursor.char
  match l.state with
  | .data => l.onData char
  | .rcdata => l.onRcdata char
  | .rawText => l.onRawText char
  | .tagOpen => l.onTagOpen char
  | .endTagOpen => l.onEndTagOpen char
  | .tagName => l.onTagName char
  | .rcdataLessThanSign => l.onTextLessThanSign .rcdata char
  | .rcdataEndTagOpen => l.onTextEndTagOpen .rcdata char
  | .rcdataEndTagName => l.onTextEndTagName .rcdata char
  | .rawTextLessThanSign => l.onTextLessThanSign .rawText char
  | .rawTextEndTagOpen => l.onTextEndTagOpen .rawText char
  | .rawTextEndTagName => l.onTextEndTagName .rawText char
  | .beforeAttributeName => l.onBeforeAttributeName char
  | .attributeName => l.onAttributeName char
  | .afterAttributeName => l.onAfterAttributeName char
  | .beforeAttributeValue => l.onBeforeAttributeValue char
  | .attributeValueDoubleQuoted =>
    l.onAttributeValueQuoted '"' .attributeValueDoubleQuoted char
  | .attributeValueSingleQuoted =>
    l.onAttributeValueQuoted '\'' .attributeValueSingleQuoted char
  | .attributeValueUnquoted => l.onAttributeValueUnquoted char
  | .afterAttributeValueQuoted => l.onAfterAttributeValueQuoted char
  | .selfClosingStartTag => l.onSelfClosingStartTag char
  | .bogusComment => l.onBogusComment char
  | .markupDeclarationOpen => l.onMarkupDeclarationOpen char
  | .commentStart => l.onCommentStart char
  | .commentStartDash => l.onCommentStartDash char
  | .comment => l.onComment char
  | .commentLessThanSign => l.onCommentLessThanSign char
  | .commentLessThanSignBang => l.onCommentLessThanSignBang char
  | .commentLessThanSignBangDash => l.onCommentLessThanSignBangDash char
  | .commentLessThanSignBangDashDash => l.onCommentLessThanSignBangDashDash char
  | .commentEndDash => l.onCommentEndDash char
  | .commentEnd => l.onCommentEnd char
  | .commentEndBang => l.onCommentEndBang char
  | .cdataSection => l.onCdataSection char
  | .cdataSectionBracket => l.onCdataSectionBracket char
  | .cdataSectionEnd => l.onCdataSectionEnd char
  | .characterReference => l.onCharacterReference char
  | .namedCharacterReference => l.onNamedCharacterReference
  | .ambiguousAmpersand => l.onAmbiguousAmpersand char
  | .numericCharacterReference => l.onNumericCharacterReference char
  | .hexadecimalCharacterReferenceStart =>
    l.onNumericReferenceStart isHexDigit .hexadecimalCharacterReference char
  | .decimalCharacterReferenceStart =>
    l.onNumericReferenceStart Char.isDigit .decimalCharacterReference char
  | .hexadecimalCharacterReference =>
    l.onNumericReferenceDigits isHexDigit 16 .hexadecimalCharacterReference char
  | .decimalCharacterReference =>
    l.onNumericReferenceDigits Char.isDigit 10 .decimalCharacterReference char
  | .interpolationStart => l.onInterpolationStart char
  | .interpolationData => l.onInterpolationData char
  | .interpolationEnd => l.onInterpolationEnd char

end Lexer

end TemplateSyntax
