import TemplateSyntax.Tree.Basic

/-!
# Walks over the tree

A walk goes over all nodes, parents before their children and siblings in order, and reports
what it meets as events.  It keeps the tasks that are left on a stack, so that trees of any depth
can be walked.
-/

namespace TemplateSyntax

/-- What a walk meets. -/
inductive WalkEvent where
  | enter (id : Nat)
  | leave (id : Nat)
  /-- An attribute of an element, before its containers. -/
  | attributeOf (element : Nat) (a : Attribute)
  | container (c : Container)
  deriving DecidableEq, Repr, Inhabited

namespace WalkEvent

/-- The events of an attribute: the dynamic argument of a directive comes before its value. -/
def ofAttribute (element : Nat) (a : Attribute) : List WalkEvent :=
  attributeOf element a ::
    match a with
    | .plain _ => []
    | .directive d =>
      (match d.key.argument with
        | some (.dynamic c) => [container c]
        | _ => []) ++ (d.value.map container).toList

/-- The events of a node itself, between entering it and its first child. -/
def ofNode (id : Nat) (n : Node) : List WalkEvent :=
  match n.content with
  | .element e => (e.attributes.toList.map (ofAttribute id)).flatten
  | .mustache c => [container c]
  | _ => []

/-- The depth behind an event. -/
def depthAfter (depth : Nat) : WalkEvent → Nat
  | enter _ => depth + 1
  | leave _ => depth - 1
  | _ => depth

/-- The greatest depth in a list of events, where `depth` nodes are entered before. -/
def maxDepth (depth : Nat) : List WalkEvent → Nat
  | [] => depth
  | e :: es => max depth (maxDepth (e.depthAfter depth) es)

end WalkEvent

/-- What is left to do on a walk. -/
inductive WalkTask where
  /-- To enter a node that was not met yet. -/
  | enter (id : Nat)
  /-- To leave a node whose children were all met. -/
  | leave (id : Nat)
  deriving DecidableEq, Repr, Inhabited

/-- A walk under way: what is left to do, the next task first, and what was met so far. -/
structure Walk where
  tasks : List WalkTask
  events : Array WalkEvent := #[]
  deriving Repr, Inhabited

namespace Walk

variable (t : Tree) (w : Walk)

/-- Does the next task.  The children of a node that is entered come before it is left. -/
def step : Walk :=
  match w.tasks with
  | [] => w
  | .leave id :: rest => ⟨rest, w.events.push (.leave id)⟩
  | .enter id :: rest =>
    match t.node? id with
    | none => ⟨rest, w.events⟩
    | some n =>
      ⟨n.children.toList.map .enter ++ .leave id :: rest,
        (w.events.push (.enter id)).appendList (WalkEvent.ofNode id n)⟩

/-- Does so many tasks, or all that are left. -/
def run : Nat → Walk → Walk
  | 0, w => w
  | count + 1, w => run count (w.step t)

end Walk

namespace Tree

variable (t : Tree)

/-- The walk over the whole tree: there is a task to enter each node, and one to leave it. -/
def fullWalk : Walk := Walk.run t (2 * t.size) ⟨[.enter root], #[]⟩

/-- The events of the walk over the whole tree. -/
def walk : List WalkEvent := t.fullWalk.events.toList

end Tree

/-- The fields that a walk goes into, for each type of node in the tree. -/
def childFields : List (String × List String) :=
  [("VTemplateRoot", ["children"]),
   ("VElement", ["startTag", "children", "endTag"]),
   ("VStartTag", ["attributes"]),
   ("VEndTag", []),
   ("VAttribute", ["key", "value"]),
   ("VDirective", ["key", "value"]),
   ("VDirectiveKey", ["name", "argument", "modifiers"]),
   ("VIdentifier", []),
   ("VLiteral", []),
   ("VText", []),
   ("VExpressionContainer", ["expression"]),
   ("VForExpression", ["left", "right"]),
   ("VOnExpression", ["body"]),
   ("VSlotScopeExpression", ["params"]),
   ("VFilterSequenceExpression", ["expression", "filters"]),
   ("VFilter", ["callee", "arguments"])]

end TemplateSyntax
