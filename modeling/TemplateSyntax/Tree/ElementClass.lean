import TemplateSyntax.Markup.Lexer.State
import TemplateSyntax.Markup.Unit
import TemplateSyntax.Tree.Basic

/-!
# Classes of elements

The names of elements decide on the end tags that may be missing, on how the content is read, and
on the namespace of what is inside.
-/

namespace TemplateSyntax

namespace ElementClass

/-- HTML elements without content and end tag. -/
def voidElements : List String :=
  ["area", "base", "br", "col", "embed", "hr", "img", "input", "link", "meta", "param", "source",
   "track", "wbr"]

/-- Elements whose content has neither tags nor references. -/
def rawTextElements : List String :=
  ["iframe", "noembed", "noframes", "noscript", "script", "style", "xmp"]

/-- Elements whose content has references but no tags. -/
def rcdataElements : List String := ["textarea", "title"]

/-- Elements whose start tag ends an open `p`. -/
def nonPhrasingElements : List String :=
  ["address", "article", "aside", "base", "blockquote", "body", "caption", "col", "colgroup",
   "dd", "details", "dialog", "div", "dl", "dt", "fieldset", "figcaption", "figure", "footer",
   "form", "h1", "h2", "h3", "h4", "h5", "h6", "head", "header", "hgroup", "hr", "html",
   "legend", "li", "menuitem", "meta", "optgroup", "option", "param", "rp", "rt", "source",
   "style", "summary", "tbody", "td", "tfoot", "th", "thead", "title", "tr", "track"]

/-- Elements that the start tag of one of the same name ends. -/
def canBeLeftOpen : List String :=
  ["colgroup", "li", "option", "p", "source", "td", "tfoot", "th", "thead", "tr"]

/-- The two parts of a description list. -/
def isDescriptionPart (name : String) : Bool := name == "dt" || name == "dd"

/-- Whether the start tag of `name` ends an open HTML element `current`. -/
def impliesEnd (current name : String) : Bool :=
  (current == "p" && nonPhrasingElements.contains name) ||
  (current == name && canBeLeftOpen.contains name) ||
  (isDescriptionPart name && isDescriptionPart current)

/-- Whether an attribute says that annotations in MathML are HTML. -/
def hasHtmlEncoding (e : Element) : Bool :=
  match (e.attribute? "encoding").bind PlainAttribute.value with
  | some v =>
    Text.sameLetters v.value "text/html" || Text.sameLetters v.value "application/xhtml+xml"
  | none => false

/-- Foreign elements whose content is HTML. -/
def isHtmlIntegrationPoint (e : Element) : Bool :=
  match e.ns with
  | .mathml => e.name == "annotation-xml" && hasHtmlEncoding e
  | .svg => e.name == "foreignObject" || e.name == "desc" || e.name == "title"
  | _ => false

/-- MathML elements whose content is text, and HTML with few exceptions. -/
def isMathmlTextPoint (e : Element) : Bool :=
  e.ns == .mathml && ["mi", "mo", "mn", "ms", "mtext"].contains e.name

/-- The namespace that an element takes from its parent, and whether it stays so whatever the
element is.  The name of the element is given in lower case. -/
def inheritedNamespace (parent : Option Element) (name : String) : Namespace × Bool :=
  match parent with
  | none => (.html, false)
  | some e =>
    if e.ns.isForeign then
      if e.ns == .mathml && e.name == "annotation-xml" && name == "svg" then (.svg, true)
      else if isHtmlIntegrationPoint e ||
          (isMathmlTextPoint e && name != "mglyph" && name != "malignmark") then (.html, false)
      else (e.ns, false)
    else (e.ns, false)

/-- The namespace that a template element declares for itself. -/
def declaredNamespace? (tag : StartTag) : Option Namespace :=
  match (tag.attributes.find? fun a => Text.sameLetters a.key.value "xmlns").bind
      TagAttribute.value with
  | none => none
  | some v =>
    match Namespace.ofUri? v.value with
    | some .html => some .html
    | some .svg => some .svg
    | some .mathml => some .mathml
    | _ => none

/-- The namespace of the element of a start tag, whose name in lower case is `name`. -/
def namespaceOf (parent : Option Element) (name : String) (tag : StartTag) : Namespace :=
  match inheritedNamespace parent name with
  | (ns, true) => ns
  | (ns, false) =>
    if ns == .html && name == "svg" then .svg
    else if ns == .html && name == "math" then .mathml
    else if name == "template" then (declaredNamespace? tag).getD ns
    else ns

/-- The state in which the lexer reads the content of an HTML element. -/
def contentState? (name : String) : Option LexState :=
  if rawTextElements.contains name then some .rawText
  else if rcdataElements.contains name then some .rcdata
  else none

end ElementClass

end TemplateSyntax
