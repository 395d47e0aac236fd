import TemplateSyntax.Directive.Reading
import TemplateSyntax.Markup.Unit
import TemplateSyntax.Template

/-! # Moving what was read

The same markup can be read at another place: at another origin, or behind other markup.  Then all
offsets and positions change in one way, and nodes may get other indices.  A `Move` says how, and here
is what it does to everything that a template is made of. -/

namespace TemplateSyntax

/-- Where offsets and nodes go, and the position at an offset.  Offsets stay in their order. -/
structure Move where
  offset : Nat → Nat
  node : Nat → Nat
  position : Nat → Position → Position
  offset_lt : ∀ {a b : Nat}, offset a < offset b ↔ a < b

namespace Move

/-- Nothing goes anywhere. -/
def refl : Move := ⟨id, id, fun _ p => p, Iff.rfl⟩

variable (m : Move) {a b : Nat}

theorem offset_le : m.offset a ≤ m.offset b ↔ a ≤ b := by
  rw [← Nat.not_lt, m.offset_lt, Nat.not_lt]

theorem offset_inj : m.offset a = m.offset b ↔ a = b := by
  rw [Nat.le_antisymm_iff, m.offset_le, m.offset_le, ← Nat.le_antisymm_iff]

theorem offset_min : m.offset (min a b) = min (m.offset a) (m.offset b) := by
  by_cases h : a ≤ b
  · rw [Nat.min_eq_left h, Nat.min_eq_left (m.offset_le.2 h)]
  · have h' : b ≤ a := by omega
    rw [Nat.min_eq_right h', Nat.min_eq_right (m.offset_le.2 h')]

theorem offset_max : m.offset (max a b) = max (m.offset a) (m.offset b) := by
  by_cases h : a ≤ b
  · rw [Nat.max_eq_right h, Nat.max_eq_right (m.offset_le.2 h)]
  · have h' : b ≤ a := by omega
    rw [Nat.max_eq_left h', Nat.max_eq_left (m.offset_le.2 h')]

/-! ## Places -/

def span (s : Span) : Span := ⟨m.offset s.start, m.offset s.stop⟩

def extent (e : Extent) : Extent :=
  ⟨m.span e.span, m.position e.span.start e.loc.start, m.position e.span.stop e.loc.stop⟩

def diagnostic (d : Diagnostic) : Diagnostic :=
  ⟨d.cause, m.offset d.offset, m.position d.offset d.position⟩

@[simp] theorem span_start (s : Span) : (m.span s).start = m.offset s.start := rfl

@[simp] theorem span_stop (s : Span) : (m.span s).stop = m.offset s.stop := rfl

@[simp] theorem extent_span (e : Extent) : (m.extent e).span = m.span e.span := rfl

@[simp] theorem diagnostic_offset (d : Diagnostic) :
    (m.diagnostic d).offset = m.offset d.offset := rfl

theorem span_cover (s t : Span) : m.span (s.cover t) = (m.span s).cover (m.span t) := by
  simp [span, Span.cover, offset_min, offset_max]

/-! ## Markup -/

def token (t : Token) : Token := { t with extent := m.extent t.extent }

def tagAttribute (a : TagAttribute) : TagAttribute :=
  ⟨m.token a.key, a.value.map m.token, m.extent a.extent⟩

def startTag (t : StartTag) : StartTag :=
  { t with attributes := t.attributes.map m.tagAttribute, extent := m.extent t.extent }

def endTag (t : EndTag) : EndTag := { t with extent := m.extent t.extent }

def textRun (t : TextRun) : TextRun := { t with extent := m.extent t.extent }

def mustache (y : Mustache) : Mustache :=
  ⟨y.value, m.token y.opening, m.token y.closing, m.extent y.extent⟩

def markupUnit : MarkupUnit → MarkupUnit
  | .startTag t => .startTag (m.startTag t)
  | .endTag t => .endTag (m.endTag t)
  | .text t => .text (m.textRun t)
  | .mustache y => .mustache (m.mustache y)

def openUnit : OpenUnit → OpenUnit
  | .startTag t => .startTag (m.startTag t)
  | .endTag t => .endTag (m.endTag t)
  | .text t => .text (m.textRun t)

/-! ## Embedded expressions -/

def shape {κ : Type} (s : Shape κ) : Shape κ := { s with span := m.span s.span }

def filterArgument (a : FilterArgument) : FilterArgument :=
  { a with expression := m.shape a.expression }

def filter (f : Filter) : Filter :=
  ⟨f.name, m.span f.nameSpan, f.arguments.map m.filterArgument, m.span f.span⟩

def expression : Expression → Expression
  | .plain e => .plain (m.shape e)
  | .iteration left right hasParens leftSpan span =>
    .iteration (left.map m.shape) (m.shape right) hasParens (m.span leftSpan) (m.span span)
  | .handler body span => .handler (body.map m.shape) (m.span span)
  | .parameters params span => .parameters (params.map m.shape) (m.span span)
  | .filtered head filters span =>
    .filtered (m.shape head) (filters.map m.filter) (m.span span)

def variableRef (v : VariableRef) : VariableRef := { v with element := m.node v.element }

def ident (id : Script.Ident) : Script.Ident := { id with span := m.span id.span }

def reference (r : Reference) : Reference :=
  { r with span := m.span r.span, target := r.target.map m.variableRef }

/-- What happens to a variable. -/
def declared (x : Variable) : Variable :=
  { x with span := m.span x.span, uses := x.uses.map m.ident }

def embedded (e : Embedded) : Embedded :=
  ⟨e.expression.map m.expression, e.references.map m.reference, e.bindings.map m.declared⟩

def failure (f : ReadFailure) : ReadFailure := { f with offset := m.offset f.offset }

/-- What happens to a result or a failure. -/
def result {α β : Type} (f : α → β) : Except ReadFailure α → Except ReadFailure β
  | .ok a => .ok (f a)
  | .error e => .error (m.failure e)

/-! ## Nodes -/

def identifier (i : Identifier) : Identifier := { i with extent := m.extent i.extent }

def literal (l : Literal) : Literal := { l with extent := m.extent l.extent }

def plainAttribute (a : PlainAttribute) : PlainAttribute :=
  ⟨m.identifier a.key, a.value.map m.literal, m.extent a.extent⟩

def container (c : Container) : Container :=
  ⟨c.expression.map m.expression, c.references.map m.reference, m.extent c.extent⟩

def argument : DirectiveArgument → DirectiveArgument
  | .fixed name => .fixed (m.identifier name)
  | .dynamic c => .dynamic (m.container c)

def key (k : DirectiveKey) : DirectiveKey :=
  ⟨m.identifier k.name, k.argument.map m.argument, k.modifiers.map m.identifier,
    m.extent k.extent⟩

def directive (d : Directive) : Directive :=
  ⟨m.key d.key, d.value.map m.container, m.extent d.extent⟩

def anyAttribute : Attribute → Attribute
  | .plain a => .plain (m.plainAttribute a)
  | .directive d => .directive (m.directive d)

def element (e : Element) : Element :=
  { e with
    attributes := e.attributes.map m.anyAttribute
    startTag := m.extent e.startTag
    endTag := e.endTag.map m.extent
    children := e.children.map m.node
    bindings := e.bindings.map m.declared }

def content : NodeContent → NodeContent
  | .root children => .root (children.map m.node)
  | .element e => .element (m.element e)
  | .text value => .text value
  | .mustache c => .mustache (m.container c)

/-- What happens to a node. -/
def treeNode (n : Node) : Node :=
  ⟨m.content n.content, n.parent.map m.node, m.extent n.extent⟩

/-- What happens to the entries of a log that diagnostics are made from. -/
def logEntry : LogEntry → LogEntry
  | .keyFault offset fault => .keyFault (m.offset offset) fault
  | .expressionFault offset fault => .expressionFault (m.offset offset) fault
  | entry => entry

end Move
end TemplateSyntax
