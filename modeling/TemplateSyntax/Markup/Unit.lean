import TemplateSyntax.Breach
import TemplateSyntax.Diagnostic
import TemplateSyntax.Markup.Token
import TemplateSyntax.Text.CharClass

/-!
# Units of markup

Tokens are put together to units: tags with their attributes, runs of text, and mustaches, which
are double braces with text in between.  An `Assembler` takes one token after the other and
gives back the units that are complete.
-/

namespace TemplateSyntax

namespace Extent

/-- From the start of one extent to the end of another. -/
def through (a b : Extent) : Extent :=
  ⟨⟨a.span.start, b.span.stop⟩, ⟨a.loc.start, b.loc.stop⟩⟩

end Extent

/-- The diagnostic of a cause at the start of a token. -/
def Token.diagnose (token : Token) (cause : Cause) : Diagnostic :=
  ⟨cause, token.extent.span.start, token.extent.loc.start⟩

/-- The name of an attribute, and its value if one was given. -/
structure TagAttribute where
  key : Token
  value : Option Token
  extent : Extent
  deriving DecidableEq, Repr, Inhabited

/-- A start tag. -/
structure StartTag where
  rawName : String
  selfClosing : Bool
  attributes : Array TagAttribute
  extent : Extent
  deriving DecidableEq, Repr, Inhabited

/-- An end tag. -/
structure EndTag where
  rawName : String
  extent : Extent
  deriving DecidableEq, Repr, Inhabited

/-- Character data without a hole. -/
structure TextRun where
  value : String
  extent : Extent
  deriving DecidableEq, Repr, Inhabited

/-- Double braces with text in between, and the tokens of the braces. -/
structure Mustache where
  value : String
  opening : Token
  closing : Token
  extent : Extent
  deriving DecidableEq, Repr, Inhabited

/-- What markup is made of. -/
inductive MarkupUnit where
  | startTag (tag : StartTag)
  | endTag (tag : EndTag)
  | text (run : TextRun)
  | mustache (m : Mustache)
  deriving DecidableEq, Repr, Inhabited

namespace MarkupUnit

/-- Where a unit is. -/
def extent : MarkupUnit → Extent
  | startTag t => t.extent
  | endTag t => t.extent
  | text t => t.extent
  | mustache m => m.extent

end MarkupUnit

/-- A unit that may still grow. -/
inductive OpenUnit where
  | startTag (tag : StartTag)
  | endTag (tag : EndTag)
  | text (run : TextRun)
  deriving DecidableEq, Repr, Inhabited

namespace OpenUnit

/-- The unit, when nothing more belongs to it. -/
def close : OpenUnit → MarkupUnit
  | startTag t => .startTag t
  | endTag t => .endTag t
  | text t => .text t

/-- The unit with a token behind it, which adds to its extent only. -/
def extend (token : Token) : OpenUnit → OpenUnit
  | startTag t => .startTag { t with extent := t.extent.through token.extent }
  | endTag t => .endTag { t with extent := t.extent.through token.extent }
  | text t => .text { t with extent := t.extent.through token.extent }

/-- Whether the unit is a tag. -/
def isTag : OpenUnit → Bool
  | text _ => false
  | _ => true

end OpenUnit

/-- The state between two tokens. -/
structure Assembler where
  current : Option OpenUnit := none
  /-- The last attribute of the tag may still get a value. -/
  attributeOpen : Bool := false
  /-- The double braces of a mustache that is not closed yet. -/
  opening : Option Token := none
  /-- The tokens since then. -/
  inside : Array Token := #[]
  /-- Units that are complete, in order. -/
  output : Array MarkupUnit := #[]
  /-- All tokens but the comments. -/
  tokens : Array Token := #[]
  comments : Array Token := #[]
  diagnostics : Array Diagnostic := #[]
  breaches : List Breach := []
  deriving Repr, Inhabited

namespace Assembler

/-- The values of tokens in a row. -/
def joinValues (tokens : Array Token) : String := tokens.foldl (fun s t => s ++ t.value) ""

variable (a : Assembler)

/-- Records a diagnostic at the start of a token. -/
def report (cause : Cause) (token : Token) : Assembler :=
  { a with diagnostics := a.diagnostics.push (token.diagnose cause) }

/-- Records a fact that was relied on and does not hold. -/
def breach (x : Breach) : Assembler := { a with breaches := x :: a.breaches }

/-- Puts a token on record. -/
def keep (token : Token) : Assembler := { a with tokens := a.tokens.push token }

/-- Puts a unit out. -/
def emit (u : MarkupUnit) : Assembler := { a with output := a.output.push u }

/-- Puts the unit out that may still grow, if there is one. -/
def emitCurrent : Assembler :=
  match a.current with
  | some u => { a with current := none }.emit u.close
  | none => a

/-- Turns a mustache that was not closed into text, behind the text before it. -/
def flushInterpolation : Assembler :=
  match a.opening with
  | none => a
  | some opening =>
    let last := a.inside.back?.getD opening
    let value := opening.value ++ joinValues a.inside
    let a := { a with opening := none, inside := #[] }
    match a.current with
    | some (.text t) =>
      { a with
        current := some (.text
          { value := t.value ++ value, extent := t.extent.through last.extent }) }
    | _ =>
      { a.emitCurrent with
        current := some (.text ⟨value, opening.extent.through last.extent⟩) }

/-- Puts everything out that is not complete. -/
def commit : Assembler := { a.flushInterpolation.emitCurrent with attributeOpen := false }

/-- Whether a tag is not closed yet. -/
def inTag : Bool := a.current.any OpenUnit.isTag

/-- A token that starts a tag. -/
def startTag (token : Token) (u : OpenUnit) : Assembler :=
  { (a.keep token).commit with current := some u }

/-- A token of a tag that carries nothing. -/
def tagPart (token : Token) : Assembler :=
  match a.current with
  | some u => if u.isTag then { a with current := some (u.extend token) }.keep token
    else a.keep token
  | none => a.keep token

/-- A token of character data: part of the mustache or of the text before it, or new text. -/
def text (token : Token) : Assembler :=
  if a.opening.isSome then { a with inside := a.inside.push token }
  else
    let fresh : OpenUnit := .text ⟨token.value, token.extent⟩
    match a.current with
    | some (.text t) =>
      if t.extent.span.stop = token.extent.span.start then
        { a with
          current := some (.text ⟨t.value ++ token.value, t.extent.through token.extent⟩) }
      else { a.commit with current := some fresh }
    | _ => { a.commit with current := some fresh }

/-- The name of an attribute.  A start tag keeps two attributes of one name; an end tag has no
attributes. -/
def identifier (token : Token) : Assembler :=
  let a := a.keep token
  match a.current with
  | some (.startTag t) =>
    let duplicate := t.attributes.any fun x => Text.sameLetters x.key.value token.value
    let t' := { t with
      attributes := t.attributes.push ⟨token, none, token.extent⟩
      extent := t.extent.through token.extent }
    let a := { a with current := some (.startTag t'), attributeOpen := true }
    if duplicate then a.report (.duplicateAttribute token.value.toLower) token else a
  | some (.endTag t) =>
    { a with
      current := some (OpenUnit.extend token (.endTag t)) }.report .endTagWithAttributes token
  | _ => a.breach .nameOutsideTag

/-- The attributes with a value for the last one. -/
def giveValue (attributes : Array TagAttribute) (token : Token) : Array TagAttribute :=
  attributes.modify (attributes.size - 1) fun x =>
    { x with value := some token, extent := x.extent.through token.extent }

/-- The value of an attribute. -/
def literal (token : Token) : Assembler :=
  let a := a.keep token
  match a.current with
  | some (.startTag t) =>
    let attributes :=
      if a.attributeOpen then giveValue t.attributes token else t.attributes
    { a with
      current := some (.startTag
        { t with attributes, extent := t.extent.through token.extent })
      attributeOpen := false }
  | some (.endTag t) => { a with current := some (OpenUnit.extend token (.endTag t)) }
  | _ => a.breach .valueOutsideTag

/-- The end of a tag. -/
def tagClose (token : Token) (selfClosing : Bool) : Assembler :=
  let a := a.keep token
  let a := match a.current with
    | some (.startTag t) =>
      { a with
        current := some (.startTag
          { t with selfClosing, extent := t.extent.through token.extent }) }
    | some (.endTag t) =>
      let a := { a with current := some (OpenUnit.extend token (.endTag t)) }
      if selfClosing then a.report .endTagWithTrailingSolidus token else a
    | _ => a.breach .closeOutsideTag
  a.commit

/-- The braces that open a mustache, or text in a mustache that is open already. -/
def interpolationStart (token : Token) : Assembler :=
  let a := a.keep token
  if a.opening.isSome then a.text token
  else
    let separated := match a.current with
      | some (.text t) => t.extent.span.stop != token.extent.span.start
      | some _ => true
      | none => false
    { (if separated then a.commit else a) with opening := some token }

/-- The braces that close a mustache.  Braces with nothing in between are text. -/
def interpolationEnd (token : Token) : Assembler :=
  let a := a.keep token
  match a.opening with
  | none => a.text token
  | some opening =>
    if a.inside.isEmpty then ({ a with opening := none }.text opening).text token
    else
      let m : Mustache :=
        ⟨joinValues a.inside, opening, token, opening.extent.through token.extent⟩
      ({ a with opening := none, inside := #[] }.commit).emit (.mustache m)

/-- Takes one token. -/
def process (token : Token) : Assembler :=
  match token.kind with
  | .comment | .bogusComment => { a with comments := a.comments.push token }
  | .tagOpen => a.startTag token (.startTag ⟨token.value, false, #[], token.extent⟩)
  | .endTagOpen => a.startTag token (.endTag ⟨token.value, token.extent⟩)
  | .identifier => a.identifier token
  | .association => a.tagPart token
  | .literal => a.literal token
  | .tagClose => a.tagClose token false
  | .selfClosingTagClose => a.tagClose token true
  | .interpolationStart => a.interpolationStart token
  | .interpolationEnd => a.interpolationEnd token
  | .whitespace => if a.inTag then a.tagPart token else (a.keep token).text token
  | .text | .rcdataText | .rawText | .cdataText => (a.keep token).text token

/-- The units that are complete, and the state without them. -/
def takeOutput : Array MarkupUnit × Assembler := (a.output, { a with output := #[] })

end Assembler

end TemplateSyntax
