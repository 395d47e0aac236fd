import TemplateSyntax.Tree.Basic

/-!
# References and variables

A reference means the variable of its name on the nearest element, going outward from where its
container stands, and of several on one element the last.  What the references of a tree mean is
looked up first, while the tree stays as it is.  Then it is written back, reference by reference:
the variable into the reference, and the identifier of the reference to the variable.
-/

namespace TemplateSyntax

/-- The index of the last variable of a name. -/
def Element.lastVariable? (e : Element) (name : String) : Option Nat :=
  (List.range e.bindings.size).reverse.find? fun i =>
    (e.bindings[i]?.map Variable.name) == some name

/-- The names of directives whose value declares variables, which are not in scope in it. -/
def declaringDirectives : List String := ["for", "slot", "slot-scope", "scope"]

/-- Where the references of the value of a directive are looked up from: the element of the
directive, or the parent of that for directives that declare variables. -/
def Directive.valueScope (d : Directive) (element : Nat) (parent : Option Nat) : Option Nat :=
  if declaringDirectives.contains d.key.name.name then parent else some element

/-- The container with a variable put into the reference of an index. -/
def Container.setTarget (c : Container) (index : Nat) (v : VariableRef) : Container :=
  { c with references := c.references.modify index fun r => { r with target := some v } }

/-! ## The places of containers -/

/-- The place of a container in a tree. -/
inductive Place where
  | mustache (id : Nat)
  /-- The dynamic argument of the directive of an element and an index in it. -/
  | argument (id i : Nat)
  | value (id i : Nat)
  deriving DecidableEq

namespace Place

/-- The node of a place. -/
def node : Place → Nat
  | mustache id => id
  | argument id _ => id
  | value id _ => id

end Place

namespace Attribute

/-- The container of a dynamic argument. -/
def argument? : Attribute → Option Container
  | directive ⟨⟨_, some (.dynamic c), _, _⟩, _, _⟩ => some c
  | _ => none

/-- The container of a value. -/
def value? : Attribute → Option Container
  | directive d => d.value
  | _ => none

/-- The attribute with a change made to the container of a dynamic argument. -/
def mapArgument (f : Container → Container) : Attribute → Attribute
  | directive ⟨⟨name, some (.dynamic c), modifiers, keyExtent⟩, value, extent⟩ =>
    directive ⟨⟨name, some (.dynamic (f c)), modifiers, keyExtent⟩, value, extent⟩
  | a => a

/-- The attribute with a change made to the container of a value. -/
def mapValue (f : Container → Container) : Attribute → Attribute
  | directive d => directive { d with value := d.value.map f }
  | a => a

end Attribute

namespace Node

/-- The container of a mustache. -/
def mustache? (n : Node) : Option Container :=
  match n.content with
  | .mustache c => some c
  | _ => none

/-- The node with a change made to one of its attributes. -/
def mapAttribute (i : Nat) (f : Attribute → Attribute) (n : Node) : Node :=
  n.mapElement fun e => { e with attributes := e.attributes.modify i f }

/-- The node with a change made to the container at a place. -/
def mapContainer (f : Container → Container) (n : Node) : Place → Node
  | .mustache _ =>
    match n.content with
    | .mustache c => { n with content := .mustache (f c) }
    | _ => n
  | .argument _ i => n.mapAttribute i (Attribute.mapArgument f)
  | .value _ i => n.mapAttribute i (Attribute.mapValue f)

end Node

/-- A container with its place, and the node that its references are looked up from. -/
structure Slot where
  place : Place
  scope : Option Nat
  container : Container

/-- The containers of an attribute: the argument, then the value. -/
def Attribute.slots (id : Nat) (parent : Option Nat) (i : Nat) : Attribute → List Slot
  | plain _ => []
  | directive d =>
    (match d.key.argument with
      | some (.dynamic c) => [⟨.argument id i, some id, c⟩]
      | _ => []) ++
    (match d.value with
      | some c => [⟨.value id i, d.valueScope id parent, c⟩]
      | none => [])

/-- The containers of a node, in order. -/
def Node.slots (id : Nat) (n : Node) : List Slot :=
  match n.content with
  | .mustache c => [⟨.mustache id, n.parent, c⟩]
  | .element e =>
    (e.attributes.toList.zipIdx.map fun (a, i) => a.slots id n.parent i).flatten
  | _ => []

/-- What a reference means: the container of the reference, its index there, and the variable. -/
structure Resolved where
  place : Place
  index : Nat
  target : VariableRef

namespace Tree

variable (t : Tree)

/-- The attribute of an index of an element. -/
def attribute? (id i : Nat) : Option Attribute :=
  (t.element? id).bind fun e => e.attributes[i]?

/-- The container at a place. -/
def containerAt? : Place → Option Container
  | .mustache id => (t.node? id).bind Node.mustache?
  | .argument id i => (t.attribute? id i).bind Attribute.argument?
  | .value id i => (t.attribute? id i).bind Attribute.value?

/-- The tree with a change made to the container at a place. -/
def modifyContainer (place : Place) (f : Container → Container) : Tree :=
  t.modify place.node fun n => n.mapContainer f place

/-- The containers of a tree, in the order of the nodes. -/
def slots : List Slot := (t.nodes.toList.zipIdx.map fun (n, id) => n.slots id).flatten

/-! ## What references mean -/

/-- The nodes that a look-up goes through from a node on: it and its ancestors. -/
def scopeChain : Option Nat → List Nat
  | some id => id :: t.ancestors id
  | none => []

/-- The last variable of a name on an element. -/
def variableOf? (name : String) (id : Nat) : Option VariableRef :=
  ((t.element? id).bind fun e => e.lastVariable? name).map fun index => ⟨id, index⟩

/-- The variable that a name means at a node. -/
def lookup? (scope : Option Nat) (name : String) : Option VariableRef :=
  (t.scopeChain scope).findSome? (t.variableOf? name)

/-- The references of a container that mean a variable. -/
def findVariables (s : Slot) : List Resolved :=
  s.container.references.toList.zipIdx.filterMap fun (r, index) =>
    (t.lookup? s.scope r.name).map fun v => ⟨s.place, index, v⟩

/-- All references that mean a variable, in the order of the containers. -/
def resolved : List Resolved := (t.slots.map t.findVariables).flatten

/-! ## Writing back -/

/-- Puts the identifier of a reference down with the variable it means. -/
def addUse (v : VariableRef) (id : Script.Ident) : Tree :=
  t.modifyElement v.element fun e =>
    { e with bindings := e.bindings.modify v.index fun x => { x with uses := x.uses.push id } }

/-- Writes down what one reference means, if the reference is there. -/
def writeBack (x : Resolved) : Tree :=
  match (t.containerAt? x.place).bind fun c => c.references[x.index]? with
  | some r =>
    (t.modifyContainer x.place fun c => c.setTarget x.index x.target).addUse x.target r.ident
  | none => t

/-- The tree with references and variables tied to each other. -/
def resolve : Tree := t.resolved.foldl writeBack t

end Tree

end TemplateSyntax
