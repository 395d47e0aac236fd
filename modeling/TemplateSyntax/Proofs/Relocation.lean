import Mathlib.Data.List.TakeWhile
import TemplateSyntax.Proofs.LexerRun
import TemplateSyntax.Proofs.Move

/-! # A lexer on relocated markup

The same markup may be read at another origin, behind markup that was read before, or in front of
more markup.  `Moved` relates the lexers of two such readings.  Where the second one has read markup
before, some of its fields are left over from there: `Field` names those, and a state needs only the
ones that have been set on the way to it.  Each operation of the lexer keeps the relation. -/

namespace TemplateSyntax

/-- Where markup goes: the indices of its text are moved by `index`, `tail` stands behind it, and what
was read in front of it has left `nodes` nodes under the root, gaps and diagnostics. -/
structure Relocation extends Move where
  source : Locator
  locator : Locator
  index : Nat
  tail : List Char
  nodes : Nat
  gaps : Array Nat
  diagnostics : Array Diagnostic
  host_eq : ∀ i, locator.host (index + i) = offset (source.host i)
  position_eq : ∀ x p, position x p = locator.position (offset x)
  node_root : node Tree.root = Tree.root
  node_eq : ∀ id, id ≠ Tree.root → node id = nodes + id

namespace Relocation

variable (r : Relocation)

/-- The positions of an extent are looked up at the new place. -/
theorem extent_eq (e : Extent) : r.extent e = r.locator.extent (r.span e.span) := by
  simp only [Move.extent, r.position_eq]
  rfl

theorem extent_locator (l : Locator) (s : Span) :
    r.extent (l.extent s) = r.locator.extent (r.span s) :=
  r.extent_eq _

theorem diagnostic_diagnose (l : Locator) (cause : Cause) (offset : Nat) :
    r.diagnostic (l.diagnose cause offset) = r.locator.diagnose cause (r.offset offset) := by
  simp only [Move.diagnostic, r.position_eq]
  rfl

def pendingToken (t : PendingToken) : PendingToken := { t with start := r.index + t.start }

theorem token_token (t : PendingToken) (stop : Nat) :
    r.token (r.source.token t stop) = r.locator.token (r.pendingToken t) (r.index + stop) := by
  simp only [Move.token, Locator.token, extent_locator, Move.span, pendingToken, r.host_eq]

theorem diagnostic_diagnose_host (cause : Cause) (i : Nat) :
    r.diagnostic (r.source.diagnose cause (r.source.host i)) =
      r.locator.diagnose cause (r.locator.host (r.index + i)) := by
  rw [r.diagnostic_diagnose, r.host_eq]

theorem map_host_range' (start count : Nat) :
    (List.range' (r.index + start) count).map r.locator.host =
      ((List.range' start count).map r.source.host).map r.offset := by
  rw [← List.map_add_range', List.map_map, List.map_map]
  exact List.map_congr_left fun i _ => r.host_eq i

/-- Text that the tail may follow: nothing that reaches up to its end is cut off there. -/
def Closes (cs : List Char) : Prop := r.tail = [] ∨ cs.getLast? = some '>'

/-! ### Reading positions -/

variable {r} {cs : List Char}

theorem Closes.cons_inv {c : Char} (h : r.Closes (c :: cs)) : cs = [] ∨ r.Closes cs := by
  cases cs with
  | nil => exact .inl rfl
  | cons d cs => exact .inr (h.imp_right fun hlast => by rwa [List.getLast?_cons_cons] at hlast)

theorem Closes.drop (h : r.Closes cs) (n : Nat) : cs.drop n = [] ∨ r.Closes (cs.drop n) := by
  induction n generalizing cs with
  | zero => exact .inr h
  | succ n ih =>
    cases cs with
    | nil => exact .inl rfl
    | cons c cs =>
      rcases h.cons_inv with rfl | h
      · exact .inl List.drop_nil
      · exact ih h

/-- A word that a tag does not end in is found in front of the tail. -/
theorem Closes.isPrefixOf_append (h : r.Closes cs) {word : List Char} (hw : '>' ∉ word) :
    word.isPrefixOf (cs ++ r.tail) = word.isPrefixOf cs := by
  rw [Bool.eq_iff_iff, List.isPrefixOf_iff_prefix, List.isPrefixOf_iff_prefix]
  refine ⟨fun hp => ?_, fun hp => hp.trans (List.prefix_append _ _)⟩
  rcases h with ht | hlast
  · rwa [ht, List.append_nil] at hp
  · rcases List.prefix_or_prefix_of_prefix hp (List.prefix_append cs r.tail) with hp | hp
    · exact hp
    · exact absurd (hp.subset (List.mem_of_getLast? hlast)) hw

/-- So is the name of a character reference. -/
theorem Closes.match?_append (h : r.Closes cs) :
    NamedReference.match? (cs ++ r.tail) = NamedReference.match? cs := by
  rcases h with ht | hlast
  · rw [ht, List.append_nil]
  · have hlt : (NamedReference.run cs).length < cs.length := by
      refine Nat.lt_of_le_of_ne (List.takeWhile_prefix _).length_le fun hlen => ?_
      have heq := (List.takeWhile_prefix Char.isAlphanum).eq_of_length hlen
      have hall := List.takeWhile_eq_self_iff.1 heq '>' (List.mem_of_getLast? hlast)
      exact absurd hall (by decide)
    have hrun : NamedReference.run (cs ++ r.tail) = NamedReference.run cs := by
      unfold NamedReference.run at hlt ⊢
      rw [List.takeWhile_append, if_neg (Nat.ne_of_lt hlt)]
    have hne : cs.drop (NamedReference.run cs).length ≠ [] := by simpa using hlt
    unfold NamedReference.match?
    dsimp only
    rw [hrun, List.drop_append_of_le_length (Nat.le_of_lt hlt),
      List.head?_append, Option.or_of_isSome (List.isSome_head?.2 hne)]

/-- And so is the character behind that name. -/
theorem Closes.head?_drop_append (h : r.Closes cs) {found : NamedReference.Found}
    (hf : NamedReference.match? cs = some found) : found.length ≤ cs.length ∧
      ((cs ++ r.tail).drop found.length).head? = (cs.drop found.length).head? := by
  obtain ⟨raw, back, rfl, hlen, hne, hchars, -⟩ := NamedReference.match?_eq_some hf
  rw [← hlen]
  refine ⟨by simp, ?_⟩
  rw [List.drop_append_of_le_length (by simp), List.drop_left, List.head?_append]
  rcases h with ht | hlast
  · rw [ht]
    simp
  · refine Option.or_of_isSome (List.isSome_head?.2 ?_)
    rintro rfl
    rw [List.append_nil] at hlast
    exact absurd (hchars '>' (List.mem_of_getLast? hlast)) (by decide)

variable (r) in
/-- A cursor with the tail behind its text. -/
def cursor (c : Cursor) : Cursor :=
  ⟨c.rest ++ r.tail, r.index + c.index, c.here ++ r.tail, r.index + c.start, c.char⟩

/-- What stands behind a carriage return decides whether it is joined, and that is not cut off. -/
theorem advance_cursor {c c' : Cursor} (hrest : c'.rest = c.rest ++ r.tail)
    (hindex : c'.index = r.index + c.index) (hc : r.Closes c.rest) :
    c'.advance = r.cursor c.advance := by
  unfold Cursor.advance
  rw [hrest, hindex]
  cases hcs : c.rest with
  | nil =>
    have ht : r.tail = [] := hc.resolve_right (by simp [hcs])
    simp [ht, cursor]
  | cons d ds =>
    rw [List.cons_append]
    by_cases hd : d = '\r'
    · subst hd
      cases ds with
      | nil =>
        have ht : r.tail = [] := hc.resolve_right (by simp [hcs])
        simp [ht, cursor, Nat.add_assoc]
      | cons e es =>
        by_cases he : e = '\n' <;> simp [he, cursor, Nat.add_assoc]
    · simp [hd, cursor, Nat.add_assoc]

theorem droppedLineFeed?_cursor {c c' : Cursor} (hrest : c'.rest = c.rest ++ r.tail)
    (hindex : c'.index = r.index + c.index) (hc : r.Closes c.rest) :
    c'.droppedLineFeed? = c.droppedLineFeed?.map (r.index + ·) := by
  unfold Cursor.droppedLineFeed?
  rw [hrest, hindex]
  cases hcs : c.rest with
  | nil =>
    have ht : r.tail = [] := hc.resolve_right (by simp [hcs])
    simp [ht]
  | cons d ds =>
    rw [List.cons_append]
    by_cases hd : d = '\r'
    · subst hd
      cases ds with
      | nil =>
        have ht : r.tail = [] := hc.resolve_right (by simp [hcs])
        simp [ht]
      | cons e es =>
        by_cases he : e = '\n' <;> simp [he, Nat.add_assoc]
    · simp [hd]

/-- The text that is left goes up to the same end. -/
theorem closes_rest_advance {c : Cursor} (hc : r.Closes c.rest) :
    c.advance.rest = [] ∨ r.Closes c.advance.rest := by
  unfold Cursor.advance
  split
  · exact .inl rfl
  · next rest hr =>
    rw [hr] at hc
    rcases hc.cons_inv with h | h
    · exact absurd h nofun
    · exact h.cons_inv
  · next rest hne hr =>
    rw [hr] at hc
    exact hc.cons_inv
  · next ch rest h1 h2 hr =>
    rw [hr] at hc
    exact hc.cons_inv
end Relocation

/-! ## Tokens -/

namespace TokenBuffer

/-- The tokens of a lexer on relocated markup.  The name of the last start tag is the same one where
it counts, and as soon as there was one. -/
structure Moved (r : Relocation) (named : Prop) (b b' : TokenBuffer) : Prop where
  current : b'.current = b.current.map r.pendingToken
  heldBack : b'.heldBack = b.heldBack.map r.pendingToken
  ready : b'.ready = b.ready.map r.token
  startName : named ∨ (∃ t ∈ b.ready, t.kind = .tagOpen) →
    b'.lastStartTagName = b.lastStartTagName

namespace Moved

variable {r : Relocation} {named named' : Prop} {b b' : TokenBuffer}

theorem mono (h : b.Moved r named b') (hn : named' → b'.lastStartTagName = b.lastStartTagName) :
    b.Moved r named' b' :=
  { h with startName := fun hor => hor.elim hn fun ht => h.startName (.inr ht) }

theorem handOver (h : b.Moved r named b') (t : PendingToken) (stop : Nat) :
    (b.handOver r.source t stop).Moved r named
      (b'.handOver r.locator (r.pendingToken t) (r.index + stop)) where
  current := h.current
  heldBack := h.heldBack
  ready := by
    simp only [TokenBuffer.handOver, h.ready, List.map_append, List.map_singleton, r.token_token]
  startName := by
    intro hor
    have hkind : (r.pendingToken t).kind = t.kind := rfl
    have hvalue : (r.pendingToken t).value = t.value := rfl
    simp only [TokenBuffer.handOver, hkind, hvalue]
    by_cases ht : t.kind = .tagOpen
    · rw [if_pos ht, if_pos ht]
    · rw [if_neg ht, if_neg ht]
      refine h.startName (hor.imp_right ?_)
      rintro ⟨x, hx, hopen⟩
      rcases List.mem_append.1 hx with hx | hx
      · exact ⟨x, hx, hopen⟩
      · obtain rfl := List.mem_singleton.1 hx
        exact absurd hopen ht

theorem commitCurrent (h : b.Moved r named b') (stop : Nat) :
    (b.commitCurrent r.source stop).Moved r named
      (b'.commitCurrent r.locator (r.index + stop)) := by
  unfold TokenBuffer.commitCurrent
  rw [h.current]
  cases hc : b.current with
  | none => exact h
  | some t =>
    have hnone : ({ b with current := none } : TokenBuffer).Moved r named
        { b' with current := none } := { h with current := rfl }
    exact hnone.handOver t stop

theorem commitHeldBack (h : b.Moved r named b') (stop : Nat) :
    (b.commitHeldBack r.source stop).Moved r named
      (b'.commitHeldBack r.locator (r.index + stop)) := by
  unfold TokenBuffer.commitHeldBack
  rw [h.heldBack]
  cases hc : b.heldBack with
  | none => exact h
  | some t =>
    have hnone : ({ b with heldBack := none } : TokenBuffer).Moved r named
        { b' with heldBack := none } := { h with heldBack := rfl }
    exact hnone.handOver t stop

theorem startAt (h : b.Moved r named b') (kind : TokenKind) (start : Nat) :
    (b.startAt r.source kind start).Moved r named
      (b'.startAt r.locator kind (r.index + start)) :=
  { h.commitCurrent start with current := rfl }

theorem finish (h : b.Moved r named b') (stop : Nat) :
    (b.finish r.source stop).Moved r named (b'.finish r.locator (r.index + stop)) := by
  have hc' := h.current
  cases hc : b.current with
  | none =>
    rw [hc] at hc'
    simp only [TokenBuffer.finish, hc, hc']
    exact { h with current := rfl }
  | some t =>
    rw [hc] at hc'
    simp only [TokenBuffer.finish, hc, hc']
    have hnone : ({ b with current := none } : TokenBuffer).Moved r named
        { b' with current := none } := { h with current := rfl }
    exact hnone.handOver t stop

theorem push (h : b.Moved r named b') (s : String) : (b.push s).Moved r named (b'.push s) where
  current := by
    simp only [TokenBuffer.push, h.current, Option.map_map]
    rfl
  heldBack := h.heldBack
  ready := h.ready
  startName := h.startName

theorem append (h : b.Moved r named b') (kind : TokenKind) (s : String) (start : Nat) :
    (b.append r.source kind s start).Moved r named
      (b'.append r.locator kind s (r.index + start)) := by
  have hkind : b'.current.map PendingToken.kind = b.current.map PendingToken.kind := by
    rw [h.current, Option.map_map]
    rfl
  have hcontinue : (b.continueAs r.source kind start).Moved r named
      (b'.continueAs r.locator kind (r.index + start)) := by
    unfold TokenBuffer.continueAs
    rw [hkind]
    split
    · exact h
    · exact h.startAt kind start
  exact hcontinue.push s

theorem hold (h : b.Moved r named b') : b.hold.Moved r named b'.hold :=
  { h with current := rfl, heldBack := h.current }

theorem restore (h : b.Moved r named b') : b.restore.Moved r named b'.restore :=
  { h with current := h.heldBack, heldBack := rfl }

end Moved
end TokenBuffer

/-! ## What a state needs -/

/-- The fields of a lexer that not every state needs. -/
inductive Field where
  /-- The current character and the text from there on. -/
  | here
  | mark
  /-- The place and text of the character reference, and where to go on behind it. -/
  | reference
  | code
  /-- Where to go on behind the interpolation. -/
  | outer
  /-- Where the interpolation starts. -/
  | opening
  | endName
  | startName
  deriving DecidableEq

/-- The fields that a state needs. -/
def LexState.needs : LexState → List Field
  | .rcdata | .rawText => [.startName]
  | .tagOpen | .endTagOpen | .markupDeclarationOpen | .selfClosingStartTag => [.mark]
  | .rcdataLessThanSign | .rawTextLessThanSign => [.mark, .startName]
  | .rcdataEndTagOpen | .rcdataEndTagName | .rawTextEndTagOpen | .rawTextEndTagName =>
    [.mark, .endName, .startName]
  | .characterReference | .namedCharacterReference | .ambiguousAmpersand
  | .numericCharacterReference => [.reference]
  | .hexadecimalCharacterReferenceStart | .decimalCharacterReferenceStart
  | .hexadecimalCharacterReference | .decimalCharacterReference => [.reference, .code]
  | .interpolationStart => [.mark, .outer]
  | .interpolationData => [.outer, .opening]
  | .interpolationEnd => [.mark, .outer, .opening]
  | _ => []

/-- The states that a character reference may be read in. -/
def LexState.hasReferences : LexState → Bool
  | .data | .rcdata | .attributeValueDoubleQuoted | .attributeValueSingleQuoted
  | .attributeValueUnquoted | .interpolationData => true
  | _ => false

/-- A field is set in both of two lexers, to what it has at the two places. -/
def Field.Moved (r : Relocation) (l l' : Lexer) : Field → Prop
  | .here => l'.cursor.here = l.cursor.here ++ r.tail ∧
    l'.cursor.start = r.index + l.cursor.start ∧ l'.cursor.char = l.cursor.char ∧
      r.Closes l.cursor.here
  | .mark => l'.mark = r.index + l.mark
  | .reference => l'.returnState = l.returnState ∧ l'.refStart = r.index + l.refStart ∧
    l'.refText = l.refText ++ r.tail
  | .code => l'.charCode = l.charCode
  | .outer => l'.outerState = l.outerState
  | .opening => l'.interpolationStart = r.index + l.interpolationStart
  | .endName => l'.endTagName = l.endTagName
  -- the tokens say when this one counts
  | .startName => True

namespace Lexer

/-- The name of the last start tag counts: there was one, or text is being read that only the end tag
of its element ends. -/
def Named (seen : Prop) (known : List Field) (l : Lexer) : Prop :=
  seen ∨ Field.startName ∈ known ∨ l.returnState = .rcdata ∨ l.outerState = .rcdata

theorem Named.of_cons {seen : Prop} {known : List Field} {l : Lexer} {x : Field}
    (h : l.Named seen (x :: known)) (hx : .startName ≠ x) : l.Named seen known :=
  h.imp_right fun hor => hor.imp_left fun hmem => (List.mem_cons.1 hmem).resolve_left hx

/-- The lexers of two readings, where the fields `known` have been set in both of them. -/
structure Moved (r : Relocation) (seen : Prop) (known : List Field) (l l' : Lexer) : Prop where
  source : l.locator = r.source
  target : l'.locator = r.locator
  rest : l'.cursor.rest = l.cursor.rest ++ r.tail
  index : l'.cursor.index = r.index + l.cursor.index
  closes : l.cursor.rest = [] ∨ r.Closes l.cursor.rest
  state : l'.state = l.state
  again : l'.again = l.again
  finished : l'.finished = l.finished
  interpolating : l'.interpolating = l.interpolating
  ns : l'.ns = l.ns
  buffer : l.buffer.Moved r (l.Named seen known) l'.buffer
  gaps : l'.gaps = r.gaps ++ l.gaps.map r.offset
  diagnostics : l'.diagnostics = r.diagnostics ++ l.diagnostics.map r.diagnostic
  known : ∀ x ∈ known, x.Moved r l l'
  returns : l.returnState.hasReferences = true
  inside : l.returnState = .interpolationData → l'.outerState = l.outerState ∧
    l'.interpolationStart = r.index + l.interpolationStart
  outside : l.outerState = .data ∨ l.outerState = .rcdata

namespace Moved

variable {r : Relocation} {seen : Prop} {known known' : List Field} {l l' : Lexer}

/-- Only the fields that are known count. -/
theorem reknow (h : l.Moved r seen known l') (hk : ∀ x ∈ known', x.Moved r l l')
    (hn : .startName ∈ known' → l.Named seen known) : l.Moved r seen known' l' :=
  { h with
    buffer := h.buffer.mono fun hnamed => h.buffer.startName <| .inl <| by
      rcases hnamed with hseen | hmem | hor
      · exact .inl hseen
      · exact hn hmem
      · exact .inr (.inr hor)
    known := hk }

theorem weaken (h : l.Moved r seen known l') (hk : ∀ x ∈ known', x ∈ known) :
    l.Moved r seen known' l' :=
  h.reknow (fun x hx => h.known x (hk x hx)) fun hx => .inr (.inl (hk _ hx))

theorem see {seen' : Prop} (h : l.Moved r seen known l') (hs : seen' → seen) :
    l.Moved r seen' known l' :=
  { h with buffer := h.buffer.mono fun hn => h.buffer.startName (.inl (hn.imp_left hs)) }

theorem startName (h : l.Moved r seen known l') (hn : l.Named seen known) :
    l'.buffer.lastStartTagName = l.buffer.lastStartTagName :=
  h.buffer.startName (.inl hn)

/-! ### Operations -/

theorem goto (h : l.Moved r seen known l') (s : LexState) :
    (l.goto s).Moved r seen known (l'.goto s) :=
  { h with state := rfl, known := fun x hx => by cases x <;> exact h.known _ hx }

theorem reconsume (h : l.Moved r seen known l') (s : LexState) :
    (l.reconsume s).Moved r seen known (l'.reconsume s) :=
  { h with
    state := rfl
    again := rfl
    known := fun x hx => by cases x <;> exact h.known _ hx }

/-- A change of the tokens alone. -/
theorem withBuffer (h : l.Moved r seen known l') {b b' : TokenBuffer}
    (hb : b.Moved r (l.Named seen known) b') :
    ({ l with buffer := b } : Lexer).Moved r seen known { l' with buffer := b' } :=
  { h with buffer := hb, known := fun x hx => by cases x <;> exact h.known _ hx }

theorem start (h : l.Moved r seen known l') (hh : .here ∈ known) :
    l'.cursor.start = r.index + l.cursor.start :=
  (h.known _ hh).2.1

theorem markHere (h : l.Moved r seen known l') (hh : .here ∈ known) :
    l.markHere.Moved r seen (.mark :: known) l'.markHere :=
  { h with
    buffer := h.buffer.mono fun hn => h.startName (hn.of_cons nofun)
    known := List.forall_mem_cons.2 ⟨h.start hh, fun x hx => by
      cases x with
      | mark => exact h.start hh
      | _ => exact h.known _ hx⟩ }

theorem reportAt (h : l.Moved r seen known l') (cause : Cause) {i i' : Nat} (hi : i' = r.index + i) :
    (l.reportAt cause i).Moved r seen known (l'.reportAt cause i') :=
  { h with
    diagnostics := by
      subst hi
      simp only [Lexer.reportAt, h.diagnostics, h.source, h.target, Array.map_push,
        r.diagnostic_diagnose_host, Array.append_push]
    known := fun x hx => by cases x <;> exact h.known _ hx }

theorem report (h : l.Moved r seen known l') (hh : .here ∈ known) (cause : Cause) :
    (l.report cause).Moved r seen known (l'.report cause) :=
  h.reportAt cause (h.start hh)

theorem addGaps (h : l.Moved r seen known l') {i i' : Nat} (hi : i' = r.index + i) (count : Nat) :
    (l.addGaps i count).Moved r seen known (l'.addGaps i' count) :=
  { h with
    gaps := by
      subst hi
      apply Array.toList_inj.1
      simp only [Lexer.addGaps, h.gaps, h.source, h.target, r.map_host_range', Array.toList_append,
        Array.toList_appendList, Array.toList_map, List.map_append, List.append_assoc]
    known := fun x hx => by cases x <;> exact h.known _ hx }

theorem startTokenAt (h : l.Moved r seen known l') (kind : TokenKind) {i i' : Nat}
    (hi : i' = r.index + i) :
    (l.startTokenAt kind i).Moved r seen known (l'.startTokenAt kind i') := by
  subst hi
  refine h.withBuffer ?_
  rw [h.source, h.target]
  exact h.buffer.startAt kind i

theorem startToken (h : l.Moved r seen known l') (hh : .here ∈ known) (kind : TokenKind) :
    (l.startToken kind).Moved r seen known (l'.startToken kind) :=
  h.startTokenAt kind (h.start hh)

theorem endToken (h : l.Moved r seen known l') :
    l.endToken.Moved r seen known l'.endToken := by
  refine h.withBuffer ?_
  rw [h.source, h.target, h.index]
  exact h.buffer.finish l.cursor.index

theorem push (h : l.Moved r seen known l') (s : String) :
    (l.push s).Moved r seen known (l'.push s) :=
  h.withBuffer (h.buffer.push s)

theorem append (h : l.Moved r seen known l') (kind : TokenKind) (s : String) {i i' : Nat}
    (hi : i' = r.index + i) :
    (l.append kind s i).Moved r seen known (l'.append kind s i') := by
  subst hi
  refine h.withBuffer ?_
  rw [h.source, h.target]
  exact h.buffer.append kind s i

theorem appendData (h : l.Moved r seen known l') (hh : .here ∈ known) (kind : TokenKind) (c : Char) :
    (l.appendData kind c).Moved r seen known (l'.appendData kind c) :=
  h.append _ _ (h.start hh)

theorem appendBlank (h : l.Moved r seen known l') (hh : .here ∈ known) (c : Char) :
    (l.appendBlank c).Moved r seen known (l'.appendBlank c) :=
  h.append _ _ (h.start hh)

theorem oneCharToken (h : l.Moved r seen known l') (hh : .here ∈ known) (kind : TokenKind) :
    (l.oneCharToken kind).Moved r seen known (l'.oneCharToken kind) :=
  (h.startToken hh kind).endToken

theorem startBlank (h : l.Moved r seen known l') (hh : .here ∈ known) (c : Char) :
    (l.startBlank c).Moved r seen known (l'.startBlank c) :=
  (h.startToken hh .whitespace).push _

theorem holdBack (h : l.Moved r seen known l') :
    l.holdBack.Moved r seen (.endName :: known) l'.holdBack :=
  { h with
    buffer := (h.buffer.mono fun hn => h.startName (hn.of_cons nofun)).hold
    known := List.forall_mem_cons.2 ⟨rfl, fun x hx => by
      cases x with
      | endName => rfl
      | _ => exact h.known _ hx⟩ }

theorem restoreHeldBack (h : l.Moved r seen known l') (hm : .mark ∈ known) (he : .endName ∈ known)
    (s : LexState) : (l.restoreHeldBack s).Moved r seen known (l'.restoreHeldBack s) := by
  refine h.withBuffer ?_
  rw [h.source, h.target, show l'.mark = r.index + l.mark from h.known _ hm,
    show l'.endTagName = l.endTagName from h.known _ he]
  exact h.buffer.restore.append _ _ _

theorem promoteHeldBack (h : l.Moved r seen known l') (hm : .mark ∈ known)
    (he : .endName ∈ known) :
    l.promoteHeldBack.Moved r seen known l'.promoteHeldBack := by
  have hname : ({ l with endTagName := "" } : Lexer).Moved r seen known
      { l' with endTagName := "" } :=
    { h with
      known := fun x hx => by
        cases x with
        | endName => rfl
        | _ => exact h.known _ hx }
  refine hname.withBuffer ?_
  rw [h.source, h.target, show l'.mark = r.index + l.mark from h.known _ hm,
    show l'.endTagName = l.endTagName from h.known _ he]
  exact ((h.buffer.commitHeldBack l.mark).startAt .endTagOpen l.mark).push l.endTagName

theorem isAppropriateEndTag (h : l.Moved r seen known l') (hs : .startName ∈ known)
    (he : .endName ∈ known) : l'.isAppropriateEndTag = l.isAppropriateEndTag := by
  unfold Lexer.isAppropriateEndTag
  rw [h.startName (.inr (.inl hs)), show l'.endTagName = l.endTagName from h.known _ he]

/-! ### Character references -/

theorem flushReference (h : l.Moved r seen known l') (hr : .reference ∈ known) (s : String) :
    (l.flushReference s).Moved r seen known (l'.flushReference s) := by
  obtain ⟨hreturn, hstart, -⟩ := h.known _ hr
  refine h.withBuffer ?_
  rw [h.source, h.target, hreturn, hstart]
  split
  · exact h.buffer.push s
  · exact h.buffer.append _ s _

/-- Text of a reference that ends in the text that is there is the same text. -/
theorem rawReference (h : l.Moved r seen known l') (hr : .reference ∈ known) {stop stop' : Nat}
    (hstop : stop' = r.index + stop) (hlen : stop - l.refStart ≤ l.refText.length) :
    l'.rawReference stop' = l.rawReference stop := by
  obtain ⟨-, hstart, htext⟩ := h.known _ hr
  unfold Lexer.rawReference
  rw [hstop, hstart, htext, Nat.add_sub_add_left, List.take_append_of_le_length hlen]

theorem flushRaw (h : l.Moved r seen known l') (hr : .reference ∈ known) {stop stop' : Nat}
    (hstop : stop' = r.index + stop) (hlen : stop - l.refStart ≤ l.refText.length) :
    (l.flushRaw stop).Moved r seen known (l'.flushRaw stop') := by
  have hcheck : (l.checkReference stop).Moved r seen known (l'.checkReference stop') :=
    { h with known := fun x hx => by cases x <;> exact h.known _ hx }
  unfold Lexer.flushRaw
  rw [h.rawReference hr hstop hlen]
  exact hcheck.flushReference hr _

theorem flushDecoded (h : l.Moved r seen known l') (hr : .reference ∈ known) (s : String)
    {stop stop' : Nat} (hstop : stop' = r.index + stop)
    (hlen : stop - l.refStart ≤ l.refText.length) :
    (l.flushDecoded s stop).Moved r seen known (l'.flushDecoded s stop') := by
  obtain ⟨-, hstart, -⟩ := h.known _ hr
  have hcheck : (l.checkReference stop).Moved r seen known (l'.checkReference stop') :=
    { h with known := fun x hx => by cases x <;> exact h.known _ hx }
  have hsize : stop' - l'.refStart = stop - l.refStart := by
    rw [hstop, hstart, Nat.add_sub_add_left]
  have hcount : stop' - (l'.refStart + s.utf8ByteSize) = stop - (l.refStart + s.utf8ByteSize) := by
    omega
  unfold Lexer.flushDecoded
  dsimp only
  rw [hsize, hcount]
  split
  · exact (hcheck.flushReference hr s).addGaps (by rw [hstart, Nat.add_assoc]) _
  · exact h.flushRaw hr hstop hlen

theorem startReference (h : l.Moved r seen known l') (hh : .here ∈ known) {s : LexState}
    (hs : s.hasReferences = true) (hn : s = .rcdata → .startName ∈ known)
    (hi : s = .interpolationData → .outer ∈ known ∧ .opening ∈ known) :
    (l.startReference s).Moved r seen (.reference :: known) (l'.startReference s) := by
  have hset : Field.reference.Moved r (l.startReference s) (l'.startReference s) :=
    ⟨rfl, h.start hh, (h.known _ hh).1⟩
  exact {
    h with
    state := rfl
    buffer := h.buffer.mono fun hnamed => h.startName <| by
      rcases hnamed with hseen | hmem | hreturn | houter
      · exact .inl hseen
      · exact .inr (.inl ((List.mem_cons.1 hmem).resolve_left nofun))
      · exact .inr (.inl (hn hreturn))
      · exact .inr (.inr (.inr houter))
    known := List.forall_mem_cons.2 ⟨hset, fun x hx => by
      cases x with
      | reference => exact hset
      | _ => exact h.known _ hx⟩
    returns := hs
    inside := fun heq => ⟨h.known _ (hi heq).1, h.known _ (hi heq).2⟩ }

theorem startInterpolation (h : l.Moved r seen known l') (hh : .here ∈ known) {s : LexState}
    (hs : s = .data ∨ s = .rcdata) (hn : s = .rcdata → .startName ∈ known) :
    (l.startInterpolation s).Moved r seen (.mark :: .outer :: known) (l'.startInterpolation s) := by
  have hmark : Field.mark.Moved r (l.startInterpolation s) (l'.startInterpolation s) := h.start hh
  exact {
    h with
    state := rfl
    buffer := h.buffer.mono fun hnamed => h.startName <| by
      rcases (hnamed.of_cons nofun).of_cons nofun with hseen | hmem | hreturn | houter
      · exact .inl hseen
      · exact .inr (.inl hmem)
      · exact .inr (.inr (.inl hreturn))
      · exact .inr (.inl (hn houter))
    known := List.forall_mem_cons.2 ⟨hmark, List.forall_mem_cons.2 ⟨rfl, fun x hx => by
      cases x with
      | mark => exact hmark
      | outer => rfl
      | _ => exact h.known _ hx⟩⟩
    inside := fun heq => ⟨rfl, (h.inside heq).2⟩
    outside := hs }

/-! ### Input -/

/-- Going on behind text that is there. -/
theorem skip (h : l.Moved r seen known l') (hh : .here ∈ known) {n : Nat}
    (hn : n ≤ l.cursor.here.length) : (l.skip n).Moved r seen known (l'.skip n) := by
  obtain ⟨hhere, hstart, hchar, hcloses⟩ := h.known _ hh
  exact {
    h with
    rest := by
      show l'.cursor.here.drop n = l.cursor.here.drop n ++ r.tail
      rw [hhere, List.drop_append_of_le_length hn]
    index := by
      show l'.cursor.start + n = r.index + (l.cursor.start + n)
      rw [hstart, Nat.add_assoc]
    closes := hcloses.drop n
    known := fun x hx => by cases x <;> exact h.known _ hx }

theorem moveOn (h : l.Moved r seen known l') (hc : r.Closes l.cursor.rest) :
    l.moveOn.Moved r seen (.here :: known) l'.moveOn := by
  have hcursor := r.advance_cursor h.rest h.index hc
  have hhere : Field.here.Moved r { l with cursor := l.cursor.advance }
      { l' with cursor := l'.cursor.advance } := by
    simp only [Field.Moved, hcursor, Relocation.cursor, Cursor.advance_here, true_and]
    exact hc
  have hmoved : ({ l with cursor := l.cursor.advance } : Lexer).Moved r seen (.here :: known)
      { l' with cursor := l'.cursor.advance } :=
    { h with
      rest := by simp only [hcursor, Relocation.cursor]
      index := by simp only [hcursor, Relocation.cursor]
      closes := r.closes_rest_advance hc
      buffer := h.buffer.mono fun hn => h.startName (hn.of_cons nofun)
      known := List.forall_mem_cons.2 ⟨hhere, fun x hx => by
        cases x with
        | here => exact hhere
        | _ => exact h.known _ hx⟩ }
  unfold Lexer.moveOn
  dsimp only
  rw [r.droppedLineFeed?_cursor h.rest h.index hc]
  cases l.cursor.droppedLineFeed? with
  | none => exact hmoved
  | some i => exact hmoved.addGaps rfl 1

theorem advance (h : l.Moved r seen known l') (hc : r.Closes l.cursor.rest) :
    l.advance.Moved r seen (.here :: known) l'.advance := by
  have hmoved := h.moveOn hc
  have hchar := (hmoved.known .here (List.mem_cons_self ..)).2.2.1
  unfold Lexer.advance
  dsimp only
  rw [hchar]
  split
  · exact hmoved.report (List.mem_cons_self ..) _
  · exact hmoved

end Moved
end Lexer
end TemplateSyntax
