import TemplateSyntax.Proofs.OutlineMove

/-! # Builders that start afresh

A builder may be as it is in front of a text, but for what it has on record.  Then it reads on as a
builder does that starts there. -/

namespace TemplateSyntax

/-- No unit may still grow, and none is out. -/
structure Assembler.Idle (a : Assembler) : Prop where
  current : a.current = none
  attributeOpen : a.attributeOpen = false
  opening : a.opening = none
  inside : a.inside = #[]
  output : a.output = #[]

namespace Builder

/-- The builder has the text `rest` in front of it, from the template index `index` on, and is not in
the middle of anything. -/
structure Fresh (rest : List Char) (index : Nat) (b : Builder) : Prop where
  state : b.lexer.state = .data
  again : b.lexer.again = false
  finished : b.lexer.finished = false
  rest : b.lexer.cursor.rest = rest
  index : b.lexer.cursor.index = index
  ready : b.lexer.buffer.ready = []
  idle : b.lexer.buffer.current = none
  notHeld : b.lexer.buffer.heldBack = none
  ns : b.lexer.ns = .html
  interpolating : b.lexer.interpolating = true
  assembler : b.assembler.Idle
  opened : b.opened = []
  verbatim : b.verbatim = none

theorem fresh_ofChars (cs : List Char) (l : Locator) (tracing : Bool) :
    (ofChars cs l tracing).Fresh cs 0 :=
  ⟨rfl, rfl, rfl, rfl, rfl, rfl, rfl, rfl, rfl, rfl, ⟨rfl, rfl, rfl, rfl, rfl⟩, rfl, rfl⟩

variable {r : Relocation} {seen : Prop} {cs : List Char} {b before b' : Builder} {i : Nat}

/-- A builder that starts afresh does so in a reading at another place as well. -/
theorem Fresh.relocated (h : b.Fresh cs i) (hm : b.Moved r seen before b') :
    b'.Fresh (cs ++ r.tail) (r.index + i) where
  state := hm.lexer.state.trans h.state
  again := hm.lexer.again.trans h.again
  finished := hm.lexer.finished.trans h.finished
  rest := by rw [hm.lexer.rest, h.rest]
  index := by rw [hm.lexer.index, h.index]
  ready := by rw [hm.lexer.buffer.ready, h.ready, List.map_nil]
  idle := by rw [hm.lexer.buffer.current, h.idle, Option.map_none]
  notHeld := by rw [hm.lexer.buffer.heldBack, h.notHeld, Option.map_none]
  ns := hm.lexer.ns.trans h.ns
  interpolating := hm.lexer.interpolating.trans h.interpolating
  assembler := {
    current := by rw [hm.assembler.current, h.assembler.current, Option.map_none]
    attributeOpen := hm.assembler.attributeOpen.trans h.assembler.attributeOpen
    opening := by rw [hm.assembler.opening, h.assembler.opening, Option.map_none]
    inside := by rw [hm.assembler.inside, h.assembler.inside, Array.map_empty]
    output := by rw [hm.assembler.output, h.assembler.output, Array.map_empty] }
  opened := by rw [hm.opened, h.opened, List.map_nil]
  verbatim := by rw [hm.verbatim, h.verbatim, Option.map_none]

/-- What a builder in front of a text reads is what a builder reads that starts afresh there, as far as
it is moved. -/
theorem Fresh.moved (h : b'.Fresh (cs ++ r.tail) r.index) (hc : r.Closes cs) (tracing : Bool)
    (htarget : b'.locator = r.locator ∧ b'.lexer.locator = r.locator)
    (hgaps : b'.lexer.gaps = r.gaps) (hdiagnostics : b'.lexer.diagnostics = r.diagnostics)
    (hsize : b'.tree.size = r.nodes + 1)
    (hroot : ∃ children extent, b'.tree.node? Tree.root = some ⟨.root children, none, extent⟩) :
    (ofChars cs r.source tracing).Moved r (Seen []) b' b' where
  source := rfl
  target := htarget.1
  lexer := {
    source := rfl
    target := htarget.2
    rest := h.rest
    index := h.index
    closes := .inr hc
    state := h.state
    again := h.again
    finished := h.finished
    interpolating := h.interpolating
    ns := h.ns
    buffer := by
      refine ⟨h.idle, h.notHeld, h.ready, fun hor => ?_⟩
      simp [Lexer.Named, Seen, Lexer.inUse, ofChars, Lexer.ofChars, LexState.needs] at hor
    gaps := by
      rw [hgaps]
      simp [ofChars, Lexer.ofChars]
    diagnostics := by
      rw [hdiagnostics]
      simp [ofChars, Lexer.ofChars]
    known := by simp [Lexer.inUse, ofChars, Lexer.ofChars, LexState.needs]
    returns := rfl
    inside := by simp [ofChars, Lexer.ofChars]
    outside := .inl rfl }
  assembler := {
    current := h.assembler.current
    attributeOpen := h.assembler.attributeOpen
    opening := h.assembler.opening
    inside := by
      rw [h.assembler.inside]
      simp [ofChars]
    output := by
      rw [h.assembler.output]
      simp [ofChars]
    tokens := by simp [ofChars]
    comments := by simp [ofChars]
    diagnostics := by simp [ofChars] }
  tree := by
    have hnone : ∀ e id, id ≠ Tree.root → (Tree.ofRoot e).node? id = none := by
      intro e id hid
      rw [← Option.not_isSome_iff_eq_none, Tree.node?_isSome, Nat.not_lt]
      exact Nat.pos_of_ne_zero hid
    have hout : ∀ id, b'.tree.size ≤ id → b'.tree.node? id = none := fun id hle =>
      Array.getElem?_eq_none hle
    obtain ⟨children, extent, htop⟩ := hroot
    refine ⟨hsize, fun id hid => ?_, fun id _ _ => rfl, ⟨#[], _, extent, rfl, ?_⟩, fun p c hmem => ?_⟩
    · show _ = ((Tree.ofRoot _).node? id).map _
      rw [hnone _ _ hid, Option.map_none]
      refine hout _ ?_
      rw [hsize, r.node_eq id hid]
      exact Nat.add_le_add_left (Nat.pos_of_ne_zero hid) _
    · rw [Tree.children_eq htop, Array.map_empty, Array.append_empty, htop]
      rfl
    · rw [show (ofChars cs r.source tracing).tree = Tree.ofRoot _ from rfl,
        Tree.children_ofRoot] at hmem
      simp at hmem
  opened := h.opened
  verbatim := h.verbatim
  directives := by simp [ofChars]
  mustaches := by simp [ofChars]
  diagnostics := by simp [ofChars]

end Builder
end TemplateSyntax
