import TemplateSyntax.Tree.Outline

/-! # Printed markup

Elements and texts can be printed: attributes between double quotes, each behind one space, and an
end tag for each element.  Besides the printed text, the tokens, the units and the nodes that such
markup is made of can be written down without reading it. -/

namespace TemplateSyntax

open Text (byteLength)

/-- Elements and texts next to each other. -/
inductive Forest where
  | nil
  | text (value : String) (behind : Forest)
  | element (name : String) (attributes : List (String × String)) (inside behind : Forest)
  deriving DecidableEq, Repr, Inhabited

/-- The extent between two template indices. -/
def Locator.between (l : Locator) (start stop : Nat) : Extent :=
  l.extent ⟨l.host start, l.host stop⟩

/-- The number of bytes of a string. -/
def Text.bytes (s : String) : Nat := byteLength s.toList

open Text (bytes)

namespace Forest

/-! ## Printing -/

/-- An attribute and the space in front of it. -/
def printAttribute (a : String × String) : List Char :=
  ' ' :: (a.1.toList ++ '=' :: '"' :: (a.2.toList ++ ['"']))

/-- The attributes of a start tag. -/
def printAttributes (attributes : List (String × String)) : List Char :=
  (attributes.map printAttribute).flatten

/-- A start tag. -/
def printStartTag (name : String) (attributes : List (String × String)) : List Char :=
  '<' :: (name.toList ++ (printAttributes attributes ++ ['>']))

/-- An end tag. -/
def printEndTag (name : String) : List Char := '<' :: '/' :: (name.toList ++ ['>'])

/-- The text of a forest. -/
def print : Forest → List Char
  | nil => []
  | text value behind => value.toList ++ behind.print
  | element name attributes inside behind =>
    printStartTag name attributes ++ (inside.print ++ (printEndTag name ++ behind.print))

/-! ## Markup that is read as it is printed -/

/-- The characters of a name behind its first one. -/
def isNameChar (c : Char) : Bool := c.isLower || c.isDigit || c == '-'

/-- A small letter, and then small letters, digits and hyphens. -/
def isName (s : String) : Bool :=
  match s.toList with
  | c :: cs => c.isLower && cs.all isNameChar
  | [] => false

/-- No character is wrong wherever it stands. -/
def isClean (s : String) : Bool := s.toList.all fun c => (Cursor.inputFault? c).isNone

/-- The names of elements that have content and are read as all others. -/
def isElementName (s : String) : Bool :=
  isName s && !ElementClass.voidElements.contains s && !ElementClass.rawTextElements.contains s &&
    !ElementClass.rcdataElements.contains s && !(["svg", "math", "template"].contains s)

/-- The names of attributes that mean nothing to a template. -/
def isAttributeName (s : String) : Bool :=
  isName s && s != "xmlns" && s != "slot-scope" && !"v-".toList.isPrefixOf s.toList

/-- A value that can stand between double quotes as it is. -/
def isValue (s : String) : Bool :=
  isClean s && s.toList.all fun c => c != '"' && c != '&' && c != '\r'

/-- A text that can stand between tags as it is. -/
def isText (s : String) : Bool :=
  s != "" && isClean s && s.toList.all fun c => c != '<' && c != '&' && c != '\x7b' && c != '\r'

/-- Whether a forest starts with a text. -/
def startsWithText : Forest → Bool
  | text _ _ => true
  | _ => false

/-- No tag implies the end of another one, no text stands next to another one, and names, values
and texts can stand where they do.  `parent` is the name of the element around the forest. -/
def WellFormed (parent : Option String) : Forest → Prop
  | nil => True
  | text value behind =>
    isText value = true ∧ behind.startsWithText = false ∧ behind.WellFormed parent
  | element name attributes inside behind =>
    isElementName name = true ∧ (∀ p ∈ parent, ElementClass.impliesEnd p name = false) ∧
      (∀ a ∈ attributes, isAttributeName a.1 = true ∧ isValue a.2 = true) ∧
      (attributes.map Prod.fst).Nodup ∧
      inside.WellFormed (some name) ∧ behind.WellFormed parent

instance decidableWellFormed (parent : Option String) : ∀ f, Decidable (WellFormed parent f)
  | nil => inferInstanceAs (Decidable True)
  | text _ behind =>
    have := decidableWellFormed parent behind
    inferInstanceAs (Decidable (_ ∧ _ ∧ _))
  | element name _ inside behind =>
    have := decidableWellFormed (some name) inside
    have := decidableWellFormed parent behind
    inferInstanceAs (Decidable (_ ∧ _ ∧ _ ∧ _ ∧ _ ∧ _))

/-! ## Names, values and texts -/

section

variable {c d : Char} {s name : String}

theorem isNameChar_of_isLower (h : c.isLower = true) : isNameChar c = true := by
  simp [isNameChar, h]

/-- A character of a name is none of those that end one. -/
theorem ne_of_isNameChar (h : isNameChar c = true) (hd : isNameChar d = false) : c ≠ d := by
  rintro rfl
  exact absurd h (by simp [hd])

theorem isBlank_of_isNameChar (h : isNameChar c = true) : CharClass.isBlank c = false := by
  have hne : ∀ d, isNameChar d = false → (c == d) = false := fun d hd =>
    beq_eq_false_iff_ne.2 (ne_of_isNameChar h hd)
  rw [CharClass.isBlank, hne '\t' (by decide), hne '\n' (by decide), hne '\x0c' (by decide),
    hne '\r' (by decide), hne ' ' (by decide)]
  rfl

theorem isNameChar_ascii (h : isNameChar c = true) :
    c.isLower = true ∨ (0x20 < c.toNat ∧ c.toNat < 0x41) := by
  simp only [isNameChar, Char.isDigit, Bool.or_eq_true, Bool.and_eq_true, decide_eq_true_eq,
    beq_iff_eq, ge_iff_le, UInt32.le_iff_toNat_le] at h
  rcases h with (h | ⟨h1, h2⟩) | rfl
  · exact .inl h
  · exact .inr ⟨Nat.lt_of_lt_of_le (by decide) h1, Nat.lt_of_le_of_lt h2 (by decide)⟩
  · exact .inr (by decide)

theorem toNat_of_isLower (h : c.isLower = true) : 0x61 ≤ c.toNat ∧ c.toNat ≤ 0x7a := by
  have hbounds : (decide (c.val ≥ 0x61) && decide (c.val ≤ 0x7a)) = true := h
  simpa [UInt32.le_iff_toNat_le, ← Char.toNat_val] using hbounds

theorem isAlpha_of_isLower (h : c.isLower = true) : c.isAlpha = true := by
  show (c.isUpper || c.isLower) = true
  rw [h, Bool.or_true]

theorem toLower_of_isNameChar (h : isNameChar c = true) : c.toLower = c := by
  have hupper : ¬ (c.val ≥ 'A'.val ∧ c.val ≤ 'Z'.val) := by
    rw [ge_iff_le, UInt32.le_iff_toNat_le, UInt32.le_iff_toNat_le]
    show ¬ (0x41 ≤ c.toNat ∧ c.toNat ≤ 0x5a)
    rcases isNameChar_ascii h with h | h
    · have hbounds := toNat_of_isLower h
      omega
    · omega
  exact dif_neg hupper

/-- A name starts with a small letter. -/
theorem isName_eq (h : isName name = true) :
    name.toList.all isNameChar = true ∧ ∃ c w, name.toList = c :: w ∧ c.isLower = true := by
  unfold isName at h
  split at h
  · next c w heq =>
    obtain ⟨hc, hw⟩ := Bool.and_eq_true_iff.1 h
    exact ⟨by simp [heq, hw, isNameChar_of_isLower hc], c, w, heq, hc⟩
  · exact absurd h (by decide)

/-- Names are in small letters. -/
theorem toLower_of_isName (h : isName name = true) : name.toLower = name := by
  have hall := (isName_eq h).1
  refine String.toList_inj.1 ?_
  have hmap : name.toLower.toList = name.toList.map Char.toLower := String.toList_map
  rw [hmap]
  exact (List.map_congr_left fun c hc =>
    toLower_of_isNameChar (List.all_eq_true.1 hall c hc)).trans (List.map_id _)

theorem isElementName_eq (h : isElementName name = true) : isName name = true ∧
    ElementClass.voidElements.contains name = false ∧ ElementClass.contentState? name = none ∧
      name ≠ "svg" ∧ name ≠ "math" ∧ name ≠ "template" := by
  simp only [isElementName, Bool.and_eq_true, Bool.not_eq_true'] at h
  obtain ⟨⟨⟨⟨hname, hvoid⟩, hraw⟩, hrcdata⟩, hforeign⟩ := h
  exact ⟨hname, hvoid, by rw [ElementClass.contentState?, hraw, hrcdata]; rfl,
    by simpa using hforeign⟩

theorem isAttributeName_eq (h : isAttributeName name = true) : isName name = true ∧
    name ≠ "xmlns" ∧ name ≠ "slot-scope" ∧ "v-".toList.isPrefixOf name.toList = false := by
  simp only [isAttributeName, Bool.and_eq_true, bne_iff_ne, Bool.not_eq_true'] at h
  exact ⟨h.1.1.1, h.1.1.2, h.1.2, h.2⟩

/-- An attribute of such a name is no directive. -/
theorem isDirectiveName_eq (h : isAttributeName s = true) (hname : name ≠ "template") :
    isDirectiveName s name = false := by
  obtain ⟨hs, -, hscope, hprefix⟩ := isAttributeName_eq h
  obtain ⟨-, c, w, hcw, hc⟩ := isName_eq hs
  have hne : ∀ d, isNameChar d = false → (c == d) = false := fun d hd =>
    beq_eq_false_iff_ne.2 (ne_of_isNameChar (isNameChar_of_isLower hc) hd)
  rw [hcw] at hprefix
  unfold isDirectiveName
  rw [hcw]
  dsimp only
  split
  · simp [hscope, hname]
  · next rest hrest =>
    -- the name would start with a sign, or like a directive
    split at hrest
    · next heq =>
      obtain ⟨rfl, rfl⟩ := List.cons.inj heq
      exact absurd hprefix (by simp)
    · next heq =>
      obtain ⟨rfl, rfl⟩ := List.cons.inj heq
      rw [hne '.' (by decide), hne ':' (by decide), hne '@' (by decide), hne '#' (by decide)]
        at hrest
      cases hrest
    · cases hrest

theorem isClean_eq (h : isClean s = true) : ∀ c ∈ s.toList, Cursor.inputFault? c = none :=
  fun c hc => by simpa using List.all_eq_true.1 h c hc

theorem isValue_eq (h : isValue s = true) : ∀ c ∈ s.toList,
    (c ≠ '\r' ∧ Cursor.inputFault? c = none) ∧ c ≠ '"' ∧ c ≠ '&' := by
  obtain ⟨hclean, hplain⟩ := Bool.and_eq_true_iff.1 h
  intro c hc
  have hc' := List.all_eq_true.1 hplain c hc
  simp only [Bool.and_eq_true, bne_iff_ne] at hc'
  obtain ⟨⟨hquote, hamp⟩, hreturn⟩ := hc'
  exact ⟨⟨hreturn, isClean_eq hclean c hc⟩, hquote, hamp⟩

theorem isText_eq (h : isText s = true) : s ≠ "" ∧ ∀ c ∈ s.toList,
    (c ≠ '\r' ∧ Cursor.inputFault? c = none) ∧ c ≠ '<' ∧ c ≠ '&' ∧ c ≠ '\x7b' := by
  simp only [isText, Bool.and_eq_true, bne_iff_ne] at h
  obtain ⟨⟨hne, hclean⟩, hplain⟩ := h
  refine ⟨hne, fun c hc => ?_⟩
  have hc' := List.all_eq_true.1 hplain c hc
  simp only [Bool.and_eq_true, bne_iff_ne] at hc'
  obtain ⟨⟨⟨hlt, hamp⟩, hbrace⟩, hreturn⟩ := hc'
  exact ⟨⟨hreturn, isClean_eq hclean c hc⟩, hlt, hamp, hbrace⟩

end

/-! ## Tokens -/

variable (l : Locator)

/-- The kind of text that a character belongs to. -/
def textKind (c : Char) : TokenKind := if CharClass.isBlank c then .whitespace else .text

/-- The tokens of a text whose first characters make up `t` already; the next one is at the
index `i`. -/
def textTokens (t : PendingToken) (i : Nat) : List Char → List Token
  | [] => [l.token t i]
  | c :: cs =>
    if t.kind = textKind c then
      textTokens { t with value := t.value ++ String.singleton c } (i + c.utf8Size) cs
    else
      l.token t i :: textTokens ⟨textKind c, i, String.singleton c⟩ (i + c.utf8Size) cs

/-- The tokens of a text at the index `i`. -/
def textTokensAt (i : Nat) : List Char → List Token
  | [] => []
  | c :: cs => textTokens l ⟨textKind c, i, String.singleton c⟩ (i + c.utf8Size) cs

/-- The name of an attribute at the index `i`. -/
def keyToken (i : Nat) (a : String × String) : Token :=
  l.token ⟨.identifier, i, a.1⟩ (i + bytes a.1)

/-- The value of an attribute, whose opening quote is at the index `i`. -/
def valueToken (i : Nat) (a : String × String) : Token :=
  l.token ⟨.literal, i, a.2⟩ (i + 1 + bytes a.2 + 1)

/-- Where the opening quote of an attribute is whose space is at the index `i`. -/
def quoteAt (i : Nat) (a : String × String) : Nat := i + 1 + bytes a.1 + 1

/-- Where an attribute stops whose space is at the index `i`. -/
def attributeStop (i : Nat) (a : String × String) : Nat := quoteAt i a + 1 + bytes a.2 + 1

/-- The tokens of an attribute whose space is at the index `i`. -/
def attributeTokens (i : Nat) (a : String × String) : List Token :=
  [l.token ⟨.whitespace, i, " "⟩ (i + 1), keyToken l (i + 1) a,
   l.token ⟨.association, i + 1 + bytes a.1, ""⟩ (quoteAt i a), valueToken l (quoteAt i a) a]

/-- The tokens of attributes, and of the end of their tag. -/
def tagTokens (i : Nat) : List (String × String) → List Token
  | [] => [l.token ⟨.tagClose, i, ""⟩ (i + 1)]
  | a :: as => attributeTokens l i a ++ tagTokens (attributeStop i a) as

/-- The tokens of a forest. -/
def tokens (i : Nat) : Forest → List Token
  | nil => []
  | text value behind => textTokensAt l i value.toList ++ behind.tokens (i + bytes value)
  | element name attributes inside behind =>
    let inner := i + byteLength (printStartTag name attributes)
    let close := inner + byteLength inside.print
    l.token ⟨.tagOpen, i, name⟩ (i + 1 + bytes name) ::
      (tagTokens l (i + 1 + bytes name) attributes ++ (inside.tokens inner ++
        (l.token ⟨.endTagOpen, close, name⟩ (close + 2 + bytes name) ::
          (tagTokens l (close + 2 + bytes name) [] ++
            behind.tokens (close + byteLength (printEndTag name))))))

/-! ## Lengths -/

theorem add_printAttribute (i : Nat) (a : String × String) :
    i + byteLength (printAttribute a) = attributeStop i a := by
  have hsize : ' '.utf8Size = 1 ∧ '='.utf8Size = 1 ∧ '"'.utf8Size = 1 := by decide
  simp only [printAttribute, Text.byteLength_cons, Text.byteLength_append, Text.byteLength_nil,
    hsize, attributeStop, quoteAt, bytes]
  omega

theorem add_printStartTag (i : Nat) (name : String) (attributes : List (String × String)) :
    i + byteLength (printStartTag name attributes) =
      i + 1 + bytes name + byteLength (printAttributes attributes) + 1 := by
  have hsize : '<'.utf8Size = 1 ∧ '>'.utf8Size = 1 := by decide
  simp only [printStartTag, Text.byteLength_cons, Text.byteLength_append, Text.byteLength_nil,
    hsize, bytes]
  omega

theorem add_printEndTag (i : Nat) (name : String) :
    i + byteLength (printEndTag name) = i + 2 + bytes name + 1 := by
  have hsize : '<'.utf8Size = 1 ∧ '/'.utf8Size = 1 ∧ '>'.utf8Size = 1 := by decide
  simp only [printEndTag, Text.byteLength_cons, Text.byteLength_append, Text.byteLength_nil,
    hsize, bytes]
  omega

/-! ## Units -/

/-- The attributes of a start tag, the first of which has its space at the index `i`. -/
def tagAttributes (i : Nat) : List (String × String) → List TagAttribute
  | [] => []
  | a :: as =>
    ⟨keyToken l (i + 1) a, some (valueToken l (quoteAt i a) a),
      l.between (i + 1) (attributeStop i a)⟩ :: tagAttributes (attributeStop i a) as

/-- The start tag of an element at the index `i`. -/
def startTagAt (i : Nat) (name : String) (attributes : List (String × String)) : StartTag :=
  ⟨name, false, (tagAttributes l (i + 1 + bytes name) attributes).toArray,
    l.between i (i + byteLength (printStartTag name attributes))⟩

/-- The end tag of an element, at the index `i`. -/
def endTagAt (i : Nat) (name : String) : EndTag :=
  ⟨name, l.between i (i + byteLength (printEndTag name))⟩

/-- The units of a forest. -/
def units (i : Nat) : Forest → List MarkupUnit
  | nil => []
  | text value behind =>
    .text ⟨value, l.between i (i + bytes value)⟩ :: behind.units (i + bytes value)
  | element name attributes inside behind =>
    let inner := i + byteLength (printStartTag name attributes)
    let close := inner + byteLength inside.print
    .startTag (startTagAt l i name attributes) :: (inside.units inner ++
      .endTag (endTagAt l close name) :: behind.units (close + byteLength (printEndTag name)))

/-! ## Nodes -/

/-- The number of nodes. -/
def count : Forest → Nat
  | nil => 0
  | text _ behind => 1 + behind.count
  | element _ _ inside behind => 1 + inside.count + behind.count

/-- The indices of the outermost nodes, the first of which is `id`. -/
def tops (id : Nat) : Forest → List Nat
  | nil => []
  | text _ behind => id :: behind.tops (id + 1)
  | element _ _ inside behind => id :: behind.tops (id + 1 + inside.count)

/-- The attributes of an element, the first of which has its space at the index `i`: each one goes
from its name to its closing quote, and its value from quote to quote. -/
def plainAttributes (i : Nat) : List (String × String) → List Attribute
  | [] => []
  | (name, value) :: as =>
    let key := i + 1
    let quote := key + bytes name + 1
    let stop := quote + 1 + bytes value + 1
    .plain ⟨⟨name, name, l.between key (key + bytes name)⟩, some ⟨value, l.between quote stop⟩,
      l.between key stop⟩ :: plainAttributes stop as

/-- The nodes of a forest under the node `parent`, parents in front of their children.  The first
one has the index `id` and stands at the template index `i`. -/
def nodes (parent id i : Nat) : Forest → List Node
  | nil => []
  | text value behind =>
    ⟨.text value, some parent, l.between i (i + bytes value)⟩ ::
      behind.nodes parent (id + 1) (i + bytes value)
  | element name attributes inside behind =>
    let inner := i + byteLength (printStartTag name attributes)
    let close := inner + byteLength inside.print
    let stop := close + byteLength (printEndTag name)
    ⟨.element {
        name, rawName := name, ns := .html, selfClosing := false
        attributes := (plainAttributes l (i + 1 + bytes name) attributes).toArray
        startTag := l.between i inner
        endTag := some (l.between close stop)
        children := (inside.tops (id + 1)).toArray, bindings := #[] },
      some parent, l.between i stop⟩ ::
        (inside.nodes id (id + 1) inner ++ behind.nodes parent (id + 1 + inside.count) stop)

theorem length_nodes (f : Forest) (parent id i : Nat) :
    (f.nodes l parent id i).length = f.count := by
  induction f generalizing parent id i with
  | nil => rfl
  | text value behind ih => rw [nodes, List.length_cons, ih, count, Nat.add_comm]
  | element name attributes inside behind ihInside ihBehind =>
    rw [nodes, List.length_cons, List.length_append, ihInside, ihBehind, count]
    omega

/-- The tree of a forest, which is all there is in the text. -/
def tree (f : Forest) : Tree :=
  ⟨(⟨.root (f.tops 1).toArray, none, l.between 0 (byteLength f.print)⟩ ::
    f.nodes l Tree.root 1 0).toArray⟩

end Forest
end TemplateSyntax
