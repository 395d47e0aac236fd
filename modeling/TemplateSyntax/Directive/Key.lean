import TemplateSyntax.Breach
import TemplateSyntax.Diagnostic
import TemplateSyntax.Text.Bytes

/-!
# The names of directives

The name of a directive is a sign or `v-` and a name, then an argument behind a colon, then
modifiers behind dots.  It is taken apart by byte indices; an argument in brackets is left as it
stands.
-/

namespace TemplateSyntax

/-- A piece of a name and its byte index. -/
structure KeyPiece where
  start : Nat
  text : List Char
  deriving DecidableEq, Repr, Inhabited

namespace KeyPiece

/-- The byte index behind a piece. -/
def stop (p : KeyPiece) : Nat := p.start + Text.byteLength p.text

end KeyPiece

/-- An argument as it is written. -/
inductive ArgumentPiece where
  | fixed (piece : KeyPiece)
  /-- An argument with its brackets. -/
  | dynamic (piece : KeyPiece)
  deriving DecidableEq, Repr, Inhabited

/-- The parts of a name behind the name of the directive, and what is wrong with them at which
byte index. -/
structure KeyTail where
  argument : Option ArgumentPiece := none
  modifiers : List KeyPiece := []
  faults : List (Nat × KeyFault) := []
  breaches : List Breach := []
  deriving DecidableEq, Repr, Inhabited

namespace KeyTail

/-- Whether a character does not start a modifier. -/
def isInner (c : Char) : Bool := c != '.'

/-- The modifiers in a text that is empty or starts with a dot. -/
def modifiersFrom (start : Nat) : List Char → KeyTail
  | [] => {}
  | c :: cs =>
    let text := cs.takeWhile isInner
    let more := modifiersFrom (start + 1 + Text.byteLength text) (cs.dropWhile isInner)
    let more := { more with
      breaches := Breach.expect (c == '.') .modifierWithoutDot ++ more.breaches }
    if text.isEmpty then { more with faults := (start, .emptyModifier) :: more.faults }
    else { more with modifiers := ⟨start + 1, text⟩ :: more.modifiers }
termination_by cs => cs.length
decreasing_by
  simp only [List.length_cons]
  exact Nat.lt_succ_of_le (List.dropWhile_sublist isInner).length_le

/-- How many brackets are open behind a character. -/
def depthAfter (depth : Nat) (c : Char) : Nat :=
  if c == '[' then depth + 1 else if c == ']' then depth - 1 else depth

/-- Cuts behind the bracket that closes the first one, if there is one.  `depth` counts the
brackets that are open. -/
def splitBrackets? (depth : Nat) : List Char → Option (List Char × List Char)
  | [] => none
  | c :: cs =>
    if c == ']' && depthAfter depth c == 0 then some ([c], cs)
    else (splitBrackets? (depthAfter depth c) cs).map fun (front, back) => (c :: front, back)

/-- Whether a bracket is open wherever the search for the bracket that closes the first one meets
a closing bracket. -/
def isNested (depth : Nat) : List Char → Bool
  | [] => true
  | c :: cs =>
    (c != ']' || depth != 0) &&
      ((c == ']' && depthAfter depth c == 0) || isNested (depthAfter depth c) cs)

/-- The two halves of a cut make up the text, and the front half ends in a bracket. -/
theorem splitBrackets?_eq_some {depth : Nat} {cs front back : List Char}
    (h : splitBrackets? depth cs = some (front, back)) :
    cs = front ++ back ∧ front.getLast? = some ']' := by
  fun_induction splitBrackets? depth cs generalizing front back with
  | case1 => simp at h
  | case2 depth c cs hc =>
    obtain ⟨rfl, rfl⟩ := Prod.mk.inj (Option.some.inj h)
    simp_all
  | case3 depth c cs hc ih =>
    obtain ⟨⟨f, b⟩, hfb, heq⟩ := Option.map_eq_some_iff.1 h
    obtain ⟨rfl, rfl⟩ := Prod.mk.inj heq
    obtain ⟨rfl, hlast⟩ := ih hfb
    refine ⟨rfl, ?_⟩
    cases f with
    | nil => simp at hlast
    | cons d ds => simpa [List.getLast?_cons_cons] using hlast

/-- The argument at the front of a text, and the modifiers behind it.  What stands between the
brackets of an argument and the next dot is a fault. -/
def ofArgument (start : Nat) (cs : List Char) : KeyTail :=
  if cs.head? == some '[' then
    let breaches := Breach.expect (isNested 0 cs) .overflow
    match splitBrackets? 0 cs with
    | none => { faults := [(start, .unterminatedArgument)], breaches }
    | some (text, rest) =>
      let piece : KeyPiece := ⟨start, text⟩
      let junk := rest.takeWhile isInner
      let more := modifiersFrom (piece.stop + Text.byteLength junk) (rest.dropWhile isInner)
      { more with
        argument := some (.dynamic piece)
        faults :=
          if junk.isEmpty then more.faults else (piece.stop, .textAfterArgument) :: more.faults
        breaches := breaches ++ more.breaches }
  else
    let piece : KeyPiece := ⟨start, cs.takeWhile isInner⟩
    let more := modifiersFrom piece.stop (cs.dropWhile isInner)
    if piece.text.isEmpty then more else { more with argument := some (.fixed piece) }

end KeyTail

/-- The parts of the name of a directive. -/
structure KeyParts where
  /-- What the directive is called. -/
  name : String
  /-- How its name is written. -/
  written : KeyPiece
  /-- Whether the sign of the directive is a modifier too. -/
  impliesProp : Bool := false
  tail : KeyTail := {}
  deriving DecidableEq, Repr, Inhabited

namespace KeyParts

/-- The names that one sign stands for. -/
def ofSign? (c : Char) : Option String :=
  if c == ':' || c == '.' then some "bind"
  else if c == '@' then some "on"
  else if c == '#' then some "slot"
  else none

/-- Whether a character is part of the name behind `v-`. -/
def isNamePart (c : Char) : Bool := c != ':' && c != '.'

/-- The parts of a name that starts with `v-`, from what is behind that. -/
def ofLongName (cs : List Char) : KeyParts :=
  let written : KeyPiece := ⟨2, cs.takeWhile isNamePart⟩
  let rest := cs.dropWhile isNamePart
  { name := String.ofList written.text
    written
    tail := match rest with
      | ':' :: rest => .ofArgument (written.stop + 1) rest
      | _ => .modifiersFrom written.stop rest }

/-- The parts of a name. -/
def ofName (cs : List Char) : KeyParts :=
  match cs with
  | 'v' :: '-' :: rest => ofLongName rest
  | c :: rest =>
    match ofSign? c with
    | some name =>
      { name, written := ⟨0, [c]⟩, impliesProp := c == '.', tail := .ofArgument 1 rest }
    | none => { name := String.ofList cs, written := ⟨0, cs⟩ }
  | [] => { name := "", written := ⟨0, []⟩ }

end KeyParts

end TemplateSyntax
