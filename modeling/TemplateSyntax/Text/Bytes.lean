/-!
# Text measured in bytes

Offsets count the bytes of the UTF-8 encoding.  This module measures lists of characters in
bytes and cuts them at byte offsets; a cut inside a character does not exist.
-/

namespace TemplateSyntax

namespace Text

/-- The number of bytes that the characters take in UTF-8. -/
def byteLength : List Char → Nat
  | [] => 0
  | c :: cs => c.utf8Size + byteLength cs

@[simp] theorem byteLength_nil : byteLength [] = 0 := rfl

@[simp] theorem byteLength_cons (c : Char) (cs : List Char) :
    byteLength (c :: cs) = c.utf8Size + byteLength cs := rfl

@[simp] theorem byteLength_append (a b : List Char) :
    byteLength (a ++ b) = byteLength a + byteLength b := by
  induction a with
  | nil => simp
  | cons c cs ih => simp [ih, Nat.add_assoc]

/-- Cuts after `n` bytes, or nowhere when `n` falls inside a character or past the end. -/
def splitAtByte? : Nat → List Char → Option (List Char × List Char)
  | 0, cs => some ([], cs)
  | _ + 1, [] => none
  | n + 1, c :: cs =>
    if c.utf8Size ≤ n + 1 then
      (splitAtByte? (n + 1 - c.utf8Size) cs).map fun (front, back) => (c :: front, back)
    else none

/-- The characters in the byte range from `lo` to `hi`, both on character boundaries. -/
def slice? (cs : List Char) (lo hi : Nat) : Option (List Char) := do
  let (_, back) ← splitAtByte? lo cs
  let (mid, _) ← splitAtByte? (hi - lo) back
  return mid

/-- The two halves of a cut make up the text, and the front half has the asked size. -/
theorem splitAtByte?_eq_some {n : Nat} {cs front back : List Char}
    (h : splitAtByte? n cs = some (front, back)) :
    cs = front ++ back ∧ byteLength front = n := by
  fun_induction splitAtByte? n cs generalizing front back with
  | case1 cs => simp_all
  | case2 n => simp at h
  | case3 n c cs hc ih =>
    obtain ⟨⟨f, b⟩, hfb, heq⟩ := Option.map_eq_some_iff.1 h
    obtain ⟨rfl, rfl⟩ := Prod.mk.inj heq
    obtain ⟨rfl, hlen⟩ := ih hfb
    exact ⟨rfl, by rw [byteLength_cons]; omega⟩
  | case4 => simp at h

/-- The text between two byte offsets that are moved into the text first; empty when a bound
does not sit on a character boundary. -/
def sliceClamped (text : String) (lo hi : Nat) : String :=
  let size := byteLength text.toList
  let lo := min lo size
  let hi := max lo (min hi size)
  match slice? text.toList lo hi with
  | some cs => String.ofList cs
  | none => ""

end Text

end TemplateSyntax
