import TemplateSyntax.Breach
import TemplateSyntax.Markup.Token

/-!
# The tokens of a lexer

The lexer builds one token at a time.  Text before a possible end tag is held back until it is
clear whether the tag is one.  Finished tokens queue up until they are handed out.
-/

namespace TemplateSyntax

/-- A token that is still being built, with the template index of its first character. -/
structure PendingToken where
  kind : TokenKind
  start : Nat
  value : String
  deriving DecidableEq, Repr, Inhabited

/-- The tokens that are being built, and those that are finished. -/
structure TokenBuffer where
  current : Option PendingToken := none
  /-- Character data held back while an end tag may be following it. -/
  heldBack : Option PendingToken := none
  /-- Finished tokens that were not handed out yet. -/
  ready : List Token := []
  lastStartTagName : String := ""
  breaches : List Breach := []
  deriving Repr, Inhabited

/-- The token of a pending token that ends before the template index `stop`. -/
def Locator.token (l : Locator) (t : PendingToken) (stop : Nat) : Token :=
  ⟨t.kind, t.value, l.extent ⟨l.host t.start, l.host stop⟩⟩

namespace TokenBuffer

variable (b : TokenBuffer) (l : Locator)

/-- Puts a token into the queue, which ends before the template index `stop`. -/
def handOver (t : PendingToken) (stop : Nat) : TokenBuffer :=
  { b with
    lastStartTagName := if t.kind = .tagOpen then t.value.toLower else b.lastStartTagName
    ready := b.ready ++ [l.token t stop]
    breaches := Breach.expect (t.start ≤ stop) .tokenReversed ++
      Breach.expect (stop ≤ l.index.size) .indexOutsideText ++ b.breaches }

/-- Finishes the token that is being built, if there is one. -/
def commitCurrent (stop : Nat) : TokenBuffer :=
  match b.current with
  | some t => { b with current := none }.handOver l t stop
  | none => b

/-- Finishes the token that is held back, if there is one. -/
def commitHeldBack (stop : Nat) : TokenBuffer :=
  match b.heldBack with
  | some t => { b with heldBack := none }.handOver l t stop
  | none => b

/-- Starts a token at a template index, where the one before it ends. -/
def startAt (kind : TokenKind) (start : Nat) : TokenBuffer :=
  { b.commitCurrent l start with current := some ⟨kind, start, ""⟩ }

/-- Finishes the token that is being built. -/
def finish (stop : Nat) : TokenBuffer :=
  match b.current with
  | some t => { b with current := none }.handOver l t stop
  | none => { b with breaches := .noToken :: b.breaches }

/-- Appends to the token that is being built. -/
def push (s : String) : TokenBuffer :=
  { b with current := b.current.map fun t => { t with value := t.value ++ s } }

/-- Continues the token when it is of this kind, and else starts one at a template index. -/
def continueAs (kind : TokenKind) (start : Nat) : TokenBuffer :=
  if b.current.map PendingToken.kind = some kind then b else b.startAt l kind start

/-- Appends text to a token of this kind. -/
def append (kind : TokenKind) (s : String) (start : Nat) : TokenBuffer :=
  (b.continueAs l kind start).push s

/-- Holds the token back that is being built. -/
def hold : TokenBuffer := { b with heldBack := b.current, current := none }

/-- Goes on with the token that was held back. -/
def restore : TokenBuffer :=
  { b with
    current := b.heldBack
    heldBack := none
    breaches := Breach.expect b.current.isNone .tokenWhileHeldBack ++ b.breaches }

end TokenBuffer

end TemplateSyntax
