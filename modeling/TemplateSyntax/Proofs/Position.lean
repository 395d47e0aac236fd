import TemplateSyntax.Text.Bytes

/-! # Positions in a text

A byte index is a position in a text when it falls between two characters.  `From cs a tail` says
that `tail` is what stands behind the position `a`, and `Between cs lo mid hi` that `mid` is what
stands between two positions.  A position determines the text behind it, so that pieces which
follow each other can be put together. -/

namespace TemplateSyntax
namespace Text

variable {cs pre post tail mid mid' : List Char} {a lo hi hi' : Nat}

theorem utf8Size_pos (c : Char) : 0 < c.utf8Size := Char.utf8Size_pos c

theorem byteLength_eq_zero : byteLength cs = 0 ↔ cs = [] := by
  cases cs with
  | nil => simp
  | cons c cs =>
    have hc := utf8Size_pos c
    simp only [byteLength_cons, reduceCtorEq, iff_false]
    omega

theorem byteLength_toList (s : String) : byteLength s.toList = s.utf8ByteSize := by
  have h : ∀ cs : List Char, (String.ofList cs).utf8ByteSize = byteLength cs := by
    intro cs
    induction cs with
    | nil => rfl
    | cons c cs ih =>
      rw [← List.singleton_append, String.ofList_append, String.utf8ByteSize_append, ih]
      simp
  rw [← h, String.ofList_toList]

/-- `tail` is the text behind the position `a`. -/
def From (cs : List Char) (a : Nat) (tail : List Char) : Prop :=
  ∃ pre, cs = pre ++ tail ∧ byteLength pre = a

/-- `mid` is the text between the positions `lo` and `hi`. -/
def Between (cs : List Char) (lo : Nat) (mid : List Char) (hi : Nat) : Prop :=
  hi = lo + byteLength mid ∧ ∃ post, From cs lo (mid ++ post)

theorem From.start (cs : List Char) : From cs 0 cs := ⟨[], rfl, rfl⟩

theorem From.size (h : From cs a tail) : a + byteLength tail = byteLength cs := by
  obtain ⟨pre, rfl, rfl⟩ := h
  rw [byteLength_append]

theorem From.le_size (h : From cs a tail) : a ≤ byteLength cs := by
  have := h.size
  omega

theorem From.append (h : From cs a (mid ++ tail)) : From cs (a + byteLength mid) tail := by
  obtain ⟨pre, rfl, rfl⟩ := h
  exact ⟨pre ++ mid, (List.append_assoc ..).symm, byteLength_append ..⟩

theorem From.cons {c : Char} (h : From cs a (c :: tail)) : From cs (a + c.utf8Size) tail :=
  (show From cs a ([c] ++ tail) from h).append

/-- What stands behind a position is determined by the position. -/
theorem From.unique {tail' : List Char} (h : From cs a tail) (h' : From cs a tail') :
    tail = tail' := by
  obtain ⟨pre, rfl, rfl⟩ := h
  obtain ⟨pre', heq, hlen⟩ := h'
  induction pre generalizing pre' with
  | nil =>
    obtain rfl := byteLength_eq_zero.1 hlen
    exact heq
  | cons c pre ih =>
    cases pre' with
    | nil =>
      have hc := utf8Size_pos c
      simp only [byteLength_nil, byteLength_cons] at hlen
      omega
    | cons c' pre' =>
      simp only [List.cons_append, List.cons.injEq] at heq
      obtain ⟨rfl, heq⟩ := heq
      simp only [byteLength_cons] at hlen
      exact ih pre' heq (by omega)

/-- A text behind one position reaches to the text behind a later one. -/
theorem From.split {b : Nat} {tail' : List Char} (h : From cs a tail) (h' : From cs b tail')
    (hab : a ≤ b) : ∃ mid, tail = mid ++ tail' ∧ byteLength mid = b - a := by
  obtain ⟨pre, rfl, rfl⟩ := h
  obtain ⟨pre', heq, hlen⟩ := h'
  induction pre generalizing pre' b with
  | nil => exact ⟨pre', heq, by rw [hlen, byteLength_nil, Nat.sub_zero]⟩
  | cons c pre ih =>
    have hc := utf8Size_pos c
    cases pre' with
    | nil =>
      simp only [byteLength_nil, byteLength_cons] at hlen hab
      omega
    | cons c' pre' =>
      simp only [List.cons_append, List.cons.injEq] at heq
      obtain ⟨rfl, heq⟩ := heq
      simp only [byteLength_cons] at hlen hab ⊢
      obtain ⟨mid, hmid, hb⟩ := ih (b := b - c.utf8Size) (by omega) pre' heq (by omega)
      exact ⟨mid, hmid, by omega⟩

theorem splitAtByte?_append (front back : List Char) :
    splitAtByte? (byteLength front) (front ++ back) = some (front, back) := by
  induction front with
  | nil => cases back <;> rfl
  | cons c front ih =>
    have hc := utf8Size_pos c
    obtain ⟨n, hn⟩ : ∃ n, c.utf8Size + byteLength front = n + 1 :=
      ⟨c.utf8Size + byteLength front - 1, by omega⟩
    rw [byteLength_cons, List.cons_append, hn, splitAtByte?, if_pos (by omega),
      show n + 1 - c.utf8Size = byteLength front by omega, ih]
    rfl

theorem From.splitAtByte? (h : From cs a tail) :
    ∃ pre, Text.splitAtByte? a cs = some (pre, tail) := by
  obtain ⟨pre, rfl, rfl⟩ := h
  exact ⟨pre, splitAtByte?_append pre tail⟩

theorem Between.le (h : Between cs lo mid hi) : lo ≤ hi := h.1 ▸ Nat.le_add_right ..

theorem Between.from (h : Between cs lo mid hi) : ∃ tail, From cs lo tail :=
  h.2.imp' (mid ++ ·) fun _ hp => hp

theorem Between.from_hi (h : Between cs lo mid hi) : ∃ tail, From cs hi tail := by
  obtain ⟨rfl, post, hp⟩ := h
  exact ⟨post, hp.append⟩

theorem Between.le_size (h : Between cs lo mid hi) : hi ≤ byteLength cs := by
  obtain ⟨tail, ht⟩ := h.from_hi
  exact ht.le_size

theorem From.between (h : From cs a (mid ++ tail)) : Between cs a mid (a + byteLength mid) :=
  ⟨rfl, tail, h⟩

theorem From.between_nil (h : From cs a tail) : Between cs a [] a := ⟨rfl, tail, h⟩

theorem From.between_cons {c : Char} (h : From cs a (c :: tail)) :
    Between cs a [c] (a + c.utf8Size) := (show From cs a ([c] ++ tail) from h).between

/-- Pieces that follow each other make up one piece. -/
theorem Between.append (h : Between cs lo mid hi) (h' : Between cs hi mid' hi') :
    Between cs lo (mid ++ mid') hi' := by
  obtain ⟨rfl, post, hp⟩ := h
  obtain ⟨rfl, post', hp'⟩ := h'
  refine ⟨by rw [byteLength_append, Nat.add_assoc], post', ?_⟩
  rw [List.append_assoc, ← hp.append.unique hp']
  exact hp

theorem Between.unique (h : Between cs lo mid hi) (h' : Between cs lo mid' hi) : mid = mid' := by
  obtain ⟨rfl, post, hp⟩ := h
  obtain ⟨heq, post', hp'⟩ := h'
  have hsplit := hp.unique hp'
  have hlen : byteLength mid = byteLength mid' := by omega
  have h1 := splitAtByte?_append mid post
  rw [hlen, hsplit, splitAtByte?_append] at h1
  simp_all

/-- A slice between two positions is what stands between them. -/
theorem Between.slice? (h : Between cs lo mid hi) : Text.slice? cs lo hi = some mid := by
  obtain ⟨rfl, post, hp⟩ := h
  obtain ⟨pre, hpre⟩ := hp.splitAtByte?
  simp [Text.slice?, hpre, splitAtByte?_append]

end Text
end TemplateSyntax
