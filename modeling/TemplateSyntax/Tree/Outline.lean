import TemplateSyntax.Markup.Lexer.Pull
import TemplateSyntax.Tree.ElementClass

/-!
# The outline of a template

The outline is the tree before its embedded texts are read: each element with its plain
attributes, a list of the attributes that are directives, and a list of the mustaches.  A
builder takes one unit of markup after the other, keeps the stack of open elements, and tells
the lexer how to read what follows.
-/

namespace TemplateSyntax

/-- Whether an attribute is a directive by its name: one that starts like a directive and goes on
to a last character that is no sign, or the two names for the scope of a slot. -/
def isDirectiveName (rawName elementName : String) : Bool :=
  let cs := rawName.toList
  let rest := match cs with
    | 'v' :: '-' :: rest => some rest
    | c :: rest => if c == '.' || c == ':' || c == '@' || c == '#' then some rest else none
    | [] => none
  let signed := match rest with
    | none => false
    | some rest =>
      match rest.getLast? with
      | none => false
      | some last =>
        !(last == '.' || last == ':' || last == '@' || last == '#') &&
          !rest.dropLast.contains '\n'
  signed || rawName == "slot-scope" || (elementName == "template" && rawName == "scope")

/-- A mustache whose text is still to be read, and the host offset of the text. -/
structure PendingMustache where
  node : Nat
  value : String
  start : Nat
  deriving DecidableEq, Repr, Inhabited

/-- The state of the tree builder. -/
structure Builder where
  locator : Locator
  lexer : Lexer
  assembler : Assembler
  tree : Tree
  /-- The open elements, the innermost first. -/
  opened : List Nat := []
  /-- The open element that turned interpolation off. -/
  verbatim : Option Nat := none
  /-- The attributes that are directives, as pairs of an element and an index in it. -/
  directives : Array (Nat × Nat) := #[]
  mustaches : Array PendingMustache := #[]
  diagnostics : Array Diagnostic := #[]
  breaches : List Breach := []
  deriving Repr, Inhabited

namespace Builder

/-- The builder in front of a text. -/
def ofChars (cs : List Char) (locator : Locator) (tracing : Bool) : Builder :=
  { locator
    lexer := Lexer.ofChars cs locator tracing
    assembler := {}
    tree := Tree.ofRoot (locator.extent locator.fullSpan) }

variable (b : Builder)

/-- Where the next node goes: the innermost open element, or the root. -/
def current : Nat := b.opened.head?.getD Tree.root

/-- The innermost open element. -/
def currentElement? : Option Element := b.opened.head?.bind b.tree.element?

/-- The namespace of the innermost open element. -/
def currentNamespace : Namespace := (b.currentElement?.map Element.ns).getD .html

/-- Records what was relied on, if it does not hold. -/
def check (ok : Bool) (x : Breach) : Builder :=
  { b with breaches := Breach.expect ok x ++ b.breaches }

/-- Records a diagnostic at a host offset. -/
def report (cause : Cause) (offset : Nat) : Builder :=
  { b.check (b.locator.covers offset) .indexOutsideText with
    diagnostics := b.diagnostics.push (b.locator.diagnose cause offset) }

/-- Records what happened. -/
def logged (entry : LogEntry) : Builder :=
  { b with lexer := { b.lexer with log := b.lexer.log.push entry } }

/-- Tells the lexer the namespace of the innermost open element. -/
def syncNamespace : Builder := { b with lexer := { b.lexer with ns := b.currentNamespace } }

/-- Adds a node inside the innermost open element, or the root. -/
def addNode (content : NodeContent) (extent : Extent) : Builder :=
  { b.check (b.tree.canHold b.current) .childOfLeaf with
    tree := b.tree.append b.current content extent }

/-- What an element ends with: its end tag, its last child, or its start tag. -/
def lastExtent (e : Element) : Extent :=
  match e.endTag with
  | some tag => tag
  | none =>
    match e.children.back?.bind b.tree.node? with
    | some child => child.extent
    | none => e.startTag

/-- Whether the node of an index and its last child are there. -/
def isWhole (id : Nat) : Bool :=
  (b.tree.node? id).any fun n => n.children.back?.all fun child => (b.tree.node? child).isSome

/-- Fixes the end of an element that is not open any more. -/
def closeElement (id : Nat) : Builder :=
  let tree := match b.tree.element? id with
    | some e => b.tree.modify id fun n => { n with extent := n.extent.through (b.lastExtent e) }
    | none => b.tree
  let b := { b.check (b.isWhole id) .noNode with tree }
  if b.verbatim == some id then
    { b with verbatim := none, lexer := { b.lexer with interpolating := true } }
  else b

/-- Closes the innermost open element if a start tag implies its end. -/
def closeImplied (name : String) : Builder :=
  match b.opened, b.currentElement? with
  | id :: outer, some e =>
    if e.ns == .html && ElementClass.impliesEnd e.name name then
      ({ b with opened := outer }.closeElement id).syncNamespace
    else b
  | _, _ => b

/-- An attribute as it stands in the tag. -/
def plainAttribute (ns : Namespace) (a : TagAttribute) : PlainAttribute :=
  ⟨⟨ns.attributeName a.key.value, a.key.value, a.key.extent⟩,
   a.value.map fun v => ⟨v.value, v.extent⟩, a.extent⟩

/-- The URI that an attribute on an element must have as its value, if it declares a
namespace. -/
def requiredUri? (ns : Namespace) (attributeName : String) : Option String :=
  if attributeName == "xmlns" then some ns.uri
  else if attributeName == "xmlns:xlink" then some Namespace.xlink.uri
  else none

/-- Records the attributes that declare another namespace than they must. -/
def checkNamespaces (ns : Namespace) (attributes : Array PlainAttribute) : Builder :=
  attributes.foldl (fun b a =>
    match requiredUri? ns a.key.name with
    | none => b
    | some uri =>
      if (a.value.map Literal.value).getD "" == uri then b
      else b.report (.invalidNamespace a.key.name) a.key.extent.span.start) b

/-- The indices of the attributes that are directives.  Where `v-pre` stands, it is the only
one. -/
def directiveIndices (elementName : String) (attributes : Array PlainAttribute) : List Nat :=
  let hasPre := attributes.any fun a => a.key.rawName == "v-pre"
  (List.range attributes.size).filter fun i =>
    match attributes[i]? with
    | some a =>
      if hasPre then a.key.rawName == "v-pre" else isDirectiveName a.key.rawName elementName
    | none => false

/-- Puts the directives of a new element on record.  Inside an element with `v-pre` there are
none, and no interpolation. -/
def scheduleDirectives (id : Nat) (elementName : String) (attributes : Array PlainAttribute) :
    Builder :=
  if b.verbatim.isSome then b
  else
    let found := directiveIndices elementName attributes
    let b := { b with directives := b.directives ++ found.map fun i => (id, i) }
    if attributes.any fun a => a.key.rawName == "v-pre" then
      let b := b.logged (.interpolationOff elementName)
      { b with verbatim := some id, lexer := { b.lexer with interpolating := false } }
    else b

/-- Adds the element of a start tag. -/
def onStartTag (tag : StartTag) : Builder :=
  let lower := tag.rawName.toLower
  let b := b.closeImplied lower
  let ns := ElementClass.namespaceOf b.currentElement? lower tag
  let name := ns.elementName tag.rawName
  let attributes := tag.attributes.map (plainAttribute ns)
  let b := b.checkNamespaces ns attributes
  let id := b.tree.size
  let element : Element :=
    { name, rawName := tag.rawName, ns
      selfClosing := tag.selfClosing
      attributes := attributes.map .plain
      startTag := tag.extent
      endTag := none, children := #[], bindings := #[] }
  let b := b.addNode (.element element) tag.extent
  let b := b.scheduleDirectives id name attributes
  if tag.selfClosing || (ns == .html && ElementClass.voidElements.contains name) then
    b.closeElement id
  else
    let lexer := { b.lexer with ns }
    let lexer :=
      if ns == .html then
        match ElementClass.contentState? lower with
        | some s => lexer.enter s
        | none => lexer
      else lexer
    { b with opened := id :: b.opened, lexer }

/-- Whether an end tag of this name closes the element of an index. -/
def closes (rawName : String) (id : Nat) : Bool :=
  match b.tree.element? id with
  | some e => Text.sameLetters e.name rawName
  | none => false

/-- Closes the innermost open elements, `count` of them. -/
def closeInnermost : Builder → Nat → Builder
  | b, 0 => b
  | b, count + 1 =>
    match b.opened with
    | id :: outer => ({ b with opened := outer }.closeElement id).closeInnermost count
    | [] => b

/-- Closes the innermost open element of the name of an end tag, and all inside it. -/
def onEndTag (tag : EndTag) : Builder :=
  match b.opened.findIdx? (b.closes tag.rawName), b.opened.find? (b.closes tag.rawName) with
  | some depth, some target =>
    let b := { b with
      tree := b.tree.modifyElement target fun e => { e with endTag := some tag.extent } }
    (b.closeInnermost (depth + 1)).syncNamespace
  | _, _ => b.report (.invalidEndTag tag.rawName.toLower) tag.extent.span.start

/-- Adds a text. -/
def onText (run : TextRun) : Builder := b.addNode (.text run.value) run.extent

/-- Adds a mustache, to be read later. -/
def onMustache (m : Mustache) : Builder :=
  { b.addNode (.mustache ⟨none, #[], m.extent⟩) m.extent with
    mustaches := b.mustaches.push ⟨b.tree.size, m.value, m.opening.extent.span.stop⟩ }

/-- Takes one unit. -/
def onUnit (u : MarkupUnit) : Builder :=
  let b :=
    if b.lexer.tracing then b.logged (.pulled b.opened.length u.extent.span) else b
  match u with
  | .startTag tag => b.onStartTag tag
  | .endTag tag => b.onEndTag tag
  | .text run => b.onText run
  | .mustache m => b.onMustache m

/-- Takes the units that the assembler has ready. -/
def drain : Builder :=
  let (units, assembler) := b.assembler.takeOutput
  units.foldl Builder.onUnit { b with assembler }

/-- Takes tokens until the text is over. -/
def run : Nat → Builder → Builder
  | 0, b => b.check false .outOfSteps
  | fuel + 1, b =>
    match b.lexer.pull with
    | (some token, lexer) =>
      run fuel { b with lexer, assembler := b.assembler.process token }.drain
    | (none, lexer) => { b with lexer, assembler := b.assembler.commit }.drain

/-- Closes what is still open. -/
def closeAll : Builder := b.closeInnermost b.opened.length

/-- The span of the root: from the first to the last child. -/
def rootSpan : Span :=
  let children := b.tree.children Tree.root
  match children[0]?.bind b.tree.node?, children.back?.bind b.tree.node? with
  | some first, some last => ⟨first.extent.span.start, last.extent.span.stop⟩
  | _, _ => Span.empty (b.locator.host 0)

/-- Gives the root its place. -/
def placeRoot : Builder :=
  { b.check (b.isWhole Tree.root) .noNode with
    tree := b.tree.modify Tree.root fun n =>
      { n with extent := b.locator.extent b.rootSpan } }

end Builder

/-- The tree with its embedded texts unread, and what was found on the way. -/
structure Outline where
  tree : Tree
  directives : Array (Nat × Nat)
  mustaches : Array PendingMustache
  tokens : Array Token
  comments : Array Token
  gaps : Array Nat
  diagnostics : Array Diagnostic
  breaches : List Breach
  log : Array LogEntry
  deriving Repr, Inhabited

namespace Outline

/-- An upper bound for the number of tokens: no step of the lexer hands out more than five. -/
def tokenBound (l : Lexer) : Nat := 5 * l.stepsLeft + 1

/-- The outline of a text. -/
def ofChars (cs : List Char) (locator : Locator) (tracing : Bool) : Outline :=
  let b := Builder.ofChars cs locator tracing
  let b := ((Builder.run (tokenBound b.lexer) b).closeAll).placeRoot
  { tree := b.tree
    directives := b.directives
    mustaches := b.mustaches
    tokens := b.assembler.tokens
    comments := b.assembler.comments
    gaps := b.lexer.sortedGaps
    diagnostics := b.lexer.diagnostics ++ b.assembler.diagnostics ++ b.diagnostics
    breaches := b.lexer.breaches ++ b.lexer.buffer.breaches ++ b.assembler.breaches ++ b.breaches
    log := b.lexer.log }

end Outline

end TemplateSyntax
