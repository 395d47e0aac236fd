/-!
# Namespaces

Elements belong to HTML, SVG or MathML.  The namespace decides how the letters of a name count:
HTML names are in lower case, SVG has names in camel case, MathML keeps names as written.
-/

namespace TemplateSyntax

/-- The namespaces that markup knows of. -/
inductive Namespace where
  | html | mathml | svg | xlink | xml | xmlns
  deriving DecidableEq, Repr, Inhabited

namespace Namespace

/-- All namespaces. -/
def all : List Namespace := [html, mathml, svg, xlink, xml, xmlns]

/-- The short name of a namespace. -/
def name : Namespace → String
  | html => "html"
  | mathml => "mathml"
  | svg => "svg"
  | xlink => "xlink"
  | xml => "xml"
  | xmlns => "xmlns"

/-- The URI that stands for a namespace. -/
def uri : Namespace → String
  | html => "http://www.w3.org/1999/xhtml"
  | mathml => "http://www.w3.org/1998/Math/MathML"
  | svg => "http://www.w3.org/2000/svg"
  | xlink => "http://www.w3.org/1999/xlink"
  | xml => "http://www.w3.org/XML/1998/namespace"
  | xmlns => "http://www.w3.org/2000/xmlns/"

/-- The namespace that a URI stands for. -/
def ofUri? (uri : String) : Option Namespace := all.find? fun ns => ns.uri == uri

/-- The namespaces of embedded content. -/
def isForeign : Namespace → Bool
  | svg | mathml => true
  | _ => false

theorem ofUri?_uri (ns : Namespace) : ofUri? ns.uri = some ns := by
  cases ns <;> decide +kernel

/-- The names of SVG elements that have capital letters. -/
def svgElementNames : List String :=
  ["altGlyph", "altGlyphDef", "altGlyphItem", "animateColor", "animateMotion",
   "animateTransform", "clipPath", "feBlend", "feColorMatrix", "feComponentTransfer",
   "feComposite", "feConvolveMatrix", "feDiffuseLighting", "feDisplacementMap", "feDistantLight",
   "feDropShadow", "feFlood", "feFuncA", "feFuncB", "feFuncG", "feFuncR", "feGaussianBlur",
   "feImage", "feMerge", "feMergeNode", "feMorphology", "feOffset", "fePointLight",
   "feSpecularLighting", "feSpotLight", "feTile", "feTurbulence", "foreignObject", "glyphRef",
   "linearGradient", "radialGradient", "textPath"]

/-- The names of SVG attributes that have capital letters. -/
def svgAttributeNames : List String :=
  ["attributeName", "attributeType", "baseFrequency", "baseProfile", "calcMode", "clipPathUnits",
   "diffuseConstant", "edgeMode", "filterUnits", "glyphRef", "gradientTransform",
   "gradientUnits", "kernelMatrix", "kernelUnitLength", "keyPoints", "keySplines", "keyTimes",
   "lengthAdjust", "limitingConeAngle", "markerHeight", "markerUnits", "markerWidth",
   "maskContentUnits", "maskUnits", "numOctaves", "pathLength", "patternContentUnits",
   "patternTransform", "patternUnits", "pointsAtX", "pointsAtY", "pointsAtZ", "preserveAlpha",
   "preserveAspectRatio", "primitiveUnits", "refX", "refY", "repeatCount", "repeatDur",
   "requiredExtensions", "requiredFeatures", "specularConstant", "specularExponent",
   "spreadMethod", "startOffset", "stdDeviation", "stitchTiles", "surfaceScale",
   "systemLanguage", "tableValues", "targetX", "targetY", "textLength", "viewBox", "viewTarget",
   "xChannelSelector", "yChannelSelector", "zoomAndPan"]

/-- The spelling in `names` of a word in lower case, or the word itself. -/
def respell (names : List String) (lower : String) : String :=
  (names.find? fun name => name.toLower == lower).getD lower

/-- The name of an element written as `raw`. -/
def elementName (ns : Namespace) (raw : String) : String :=
  match ns with
  | html => raw.toLower
  | svg => respell svgElementNames raw.toLower
  | _ => raw

/-- The name of an attribute written as `raw` on an element of the namespace. -/
def attributeName (ns : Namespace) (raw : String) : String :=
  let lower := raw.toLower
  match ns with
  | svg => respell svgAttributeNames lower
  | mathml => if lower == "definitionurl" then "definitionURL" else lower
  | _ => lower

end Namespace

end TemplateSyntax
