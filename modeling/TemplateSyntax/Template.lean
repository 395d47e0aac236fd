import TemplateSyntax.Directive.Reading
import TemplateSyntax.Tree.Outline
import TemplateSyntax.Tree.Resolution

/-!
# Templates

A template is read in four passes: the outline of the tree, the directives, the mustaches, and
the references.  Reading never fails; what is wrong with a template are its diagnostics, in the
order of their offsets.
-/

namespace TemplateSyntax

/-- How to read a template. -/
structure Options where
  origin : Origin := Origin.fileStart
  lang : Script.Lang := .javaScript
  /-- Whether `|` in front of a name starts a filter. -/
  filters : Bool := true
  /-- Whether the moves of the lexer and the tree builder are logged. -/
  tracing : Bool := false
  deriving Repr, Inhabited

/-- What was read of a template. -/
structure Template where
  tree : Tree
  tokens : Array Token
  comments : Array Token
  diagnostics : Array Diagnostic
  /-- What was relied on and did not hold. -/
  breaches : List Breach
  log : Array LogEntry
  deriving Repr, Inhabited

namespace Template

/-- A tree whose embedded texts are being read, and the entries this leaves in the log. -/
structure Progress where
  tree : Tree
  log : Array LogEntry := #[]
  breaches : List Breach := []
  deriving Repr, Inhabited

namespace Progress

/-- Records what was relied on, if it does not hold. -/
def check (p : Progress) (ok : Bool) (x : Breach) : Progress :=
  { p with breaches := Breach.expect ok x ++ p.breaches }

/-- Turns an attribute of an element into a directive. -/
def readDirective (r : Reading) (p : Progress) (place : Nat × Nat) : Progress :=
  let p := p.check (p.tree.node? place.1).isSome .noNode
  match (p.tree.element? place.1).bind fun e => e.attributes[place.2]? with
  | some (.plain a) =>
    let d := r.directive a
    { tree := p.tree.modifyElement place.1 fun e =>
        { e with
          attributes := e.attributes.set! place.2 (.directive d.directive)
          bindings := e.bindings ++ d.bindings }
      log := p.log ++ d.log
      breaches := d.breaches ++ p.breaches }
  | _ => p

/-- Reads the text of a mustache. -/
def readMustache (r : Reading) (p : Progress) (m : PendingMustache) : Progress :=
  match p.tree.node? m.node with
  | none => p.check false .noNode
  | some n =>
    let c := r.mustache m.value m.start n.extent
    { p with
      tree := p.tree.modify m.node fun n => { n with content := .mustache c.container }
      log := p.log ++ c.faults }

end Progress

/-- The diagnostics in the order of their offsets; those of one offset stay in their order. -/
def inOrder (ds : List Diagnostic) : List Diagnostic :=
  ds.mergeSort fun a b => a.offset ≤ b.offset

/-- Reads a template, and the scripts in it with `reader`. -/
def parse (text : String) (o : Options) (reader : Script.Reader := Script.parse) : Template :=
  let cs := text.toList
  let locator := Locator.ofChars cs o.origin
  let outline := Outline.ofChars cs locator o.tracing
  let reading : Reading :=
    { text := cs, locator, map := OffsetMap.ofGaps o.origin outline.gaps
      lang := o.lang, filters := o.filters, reader }
  let p : Progress := { tree := outline.tree }
  let p := outline.directives.foldl (Progress.readDirective reading) p
  let p := outline.mustaches.foldl (Progress.readMustache reading) p
  let found := p.log.toList.filterMap (LogEntry.diagnostic? locator)
  { tree := p.tree.resolve
    tokens := outline.tokens
    comments := outline.comments
    diagnostics := (inOrder (outline.diagnostics.toList ++ found)).toArray
    breaches := outline.breaches ++ p.breaches
    log := outline.log ++ p.log }

end Template

end TemplateSyntax
