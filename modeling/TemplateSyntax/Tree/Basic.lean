import TemplateSyntax.Embedded.Expression
import TemplateSyntax.Markup.Namespace
import TemplateSyntax.Markup.Token

/-!
# The template tree

The nodes of a template are kept in one array and refer to each other by index.  The root is
node zero; every other node has a parent, which is the root or an element and stands before it.
-/

namespace TemplateSyntax

/-- A name, its spelling in the text, and where it is. -/
structure Identifier where
  name : String
  rawName : String
  extent : Extent
  deriving DecidableEq, Repr, Inhabited

/-- The value of an attribute. -/
structure Literal where
  value : String
  extent : Extent
  deriving DecidableEq, Repr, Inhabited

/-- An attribute that is no directive. -/
structure PlainAttribute where
  key : Identifier
  value : Option Literal
  extent : Extent
  deriving DecidableEq, Repr, Inhabited

/-- The place of an embedded expression.  Without an expression it is blank or could not be
read. -/
structure Container where
  expression : Option Expression
  references : Array Reference
  extent : Extent
  deriving DecidableEq, Repr, Inhabited

/-- The argument of a directive. -/
inductive DirectiveArgument where
  | fixed (name : Identifier)
  | dynamic (container : Container)
  deriving DecidableEq, Repr, Inhabited

/-- The parts of the name of a directive. -/
structure DirectiveKey where
  name : Identifier
  argument : Option DirectiveArgument
  modifiers : List Identifier
  extent : Extent
  deriving DecidableEq, Repr, Inhabited

/-- An attribute with a meaning to the template. -/
structure Directive where
  key : DirectiveKey
  value : Option Container
  extent : Extent
  deriving DecidableEq, Repr, Inhabited

/-- An attribute of an element. -/
inductive Attribute where
  | plain (a : PlainAttribute)
  | directive (d : Directive)
  deriving DecidableEq, Repr, Inhabited

namespace Attribute

/-- Where an attribute is. -/
def extent : Attribute → Extent
  | plain a => a.extent
  | directive d => d.extent

/-- Whether the attribute is a directive. -/
def isDirective : Attribute → Bool
  | plain _ => false
  | directive _ => true

end Attribute

/-- An element. -/
structure Element where
  name : String
  rawName : String
  ns : Namespace
  selfClosing : Bool
  attributes : Array Attribute
  startTag : Extent
  endTag : Option Extent
  children : Array Nat
  bindings : Array Variable
  deriving DecidableEq, Repr, Inhabited

namespace Element

/-- The first attribute of a name that is no directive. -/
def attribute? (e : Element) (name : String) : Option PlainAttribute :=
  e.attributes.findSome? fun
    | .plain a => if a.key.name == name then some a else none
    | .directive _ => none

/-- The first directive of a name. -/
def directive? (e : Element) (name : String) : Option Directive :=
  e.attributes.findSome? fun
    | .directive d => if d.key.name.name == name then some d else none
    | .plain _ => none

end Element

/-- What a node is. -/
inductive NodeContent where
  | root (children : Array Nat)
  | element (element : Element)
  | text (value : String)
  | mustache (container : Container)
  deriving DecidableEq, Repr, Inhabited

/-- A node with its parent and place. -/
structure Node where
  content : NodeContent
  parent : Option Nat
  extent : Extent
  deriving DecidableEq, Repr, Inhabited

namespace Node

/-- The name of the type of a node. -/
def typeName (n : Node) : String :=
  match n.content with
  | .root _ => "VTemplateRoot"
  | .element _ => "VElement"
  | .text _ => "VText"
  | .mustache _ => "VExpressionContainer"

/-- The children of a node, in order. -/
def children (n : Node) : Array Nat :=
  match n.content with
  | .root children => children
  | .element e => e.children
  | _ => #[]

/-- The element that a node is. -/
def element? (n : Node) : Option Element :=
  match n.content with
  | .element e => some e
  | _ => none

/-- The node with `f` applied to the element that it is. -/
def mapElement (f : Element → Element) (n : Node) : Node :=
  match n.content with
  | .element e => { n with content := .element (f e) }
  | _ => n

/-- Whether a node can have children. -/
def canHold (n : Node) : Bool :=
  match n.content with
  | .root _ | .element _ => true
  | _ => false

/-- The node with one more child. -/
def addChild (n : Node) (child : Nat) : Node :=
  match n.content with
  | .root children => { n with content := .root (children.push child) }
  | .element e => { n with content := .element { e with children := e.children.push child } }
  | _ => n

end Node

/-- All nodes of a template. -/
structure Tree where
  nodes : Array Node
  deriving DecidableEq, Repr, Inhabited

namespace Tree

variable (t : Tree)

/-- The tree of a root alone. -/
def ofRoot (extent : Extent) : Tree := ⟨#[⟨.root #[], none, extent⟩]⟩

/-- The root. -/
def root : Nat := 0

/-- The number of nodes. -/
def size : Nat := t.nodes.size

/-- The node of an index, if there is one. -/
def node? (id : Nat) : Option Node := t.nodes[id]?

/-- The parent of a node. -/
def parent? (id : Nat) : Option Nat := (t.node? id).bind Node.parent

/-- The children of a node. -/
def children (id : Nat) : Array Nat := ((t.node? id).map Node.children).getD #[]

/-- The element of an index. -/
def element? (id : Nat) : Option Element := (t.node? id).bind Node.element?

/-- Whether a node is there and can have children. -/
def canHold (id : Nat) : Bool := (t.node? id).any Node.canHold

/-- The tree with one node changed. -/
def modify (id : Nat) (f : Node → Node) : Tree := ⟨t.nodes.modify id f⟩

/-- The tree with one element changed. -/
def modifyElement (id : Nat) (f : Element → Element) : Tree := t.modify id (Node.mapElement f)

/-- Adds a node as the last child of `parent`; its index is the size of the tree before. -/
def append (parent : Nat) (content : NodeContent) (extent : Extent) : Tree :=
  ⟨(t.modify parent fun n => n.addChild t.size).nodes.push ⟨content, some parent, extent⟩⟩

/-- The parents from a node outward, at most `fuel` of them. -/
def outward : Nat → Nat → List Nat
  | 0, _ => []
  | fuel + 1, id =>
    match t.parent? id with
    | some p => p :: outward fuel p
    | none => []

/-- The ancestors of a node, from its parent to the root. -/
def ancestors (id : Nat) : List Nat := t.outward t.size id

theorem size_modify (id : Nat) (f : Node → Node) : (t.modify id f).size = t.size := by
  simp [modify, size]

theorem size_append (parent : Nat) (content : NodeContent) (extent : Extent) :
    (t.append parent content extent).size = t.size + 1 := by
  simp [append, modify, size]

end Tree

end TemplateSyntax
