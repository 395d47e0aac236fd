import TemplateSyntax.Proofs.FragmentMove

/-! # Reading embedded texts at another place

A directive whose attribute has been moved is read as the directive itself, moved, if the texts in its
name and value are mapped to the places that they have moved to; so is a mustache. -/

namespace TemplateSyntax

/-- What happens to a container with what was found in it. -/
def Contained.move (m : Move) (c : Contained) : Contained :=
  ⟨m.container c.container, c.bindings.map m.declared, c.faults.map m.logEntry⟩

/-- What happens to a directive with what was found in it. -/
def ReadDirective.move (m : Move) (d : ReadDirective) : ReadDirective :=
  { d with
    directive := m.directive d.directive
    bindings := d.bindings.map m.declared
    log := d.log.map m.logEntry }

theorem Contained.ofResult_move (m : Move) (extent : Extent) (x : Except ReadFailure Embedded) :
    Contained.ofResult (m.extent extent) (m.result m.embedded x) =
      (Contained.ofResult extent x).move m := by
  cases x with
  | ok e => rfl
  | error f =>
    simp only [Contained.ofResult, Move.result, Contained.move, Move.container, Option.map_none,
      Array.map_empty]
    rfl

namespace Reading

/-- Two readings do the same, with the positions of the second one at the places that the first one's
move to. -/
structure Follows (m : Move) (r r' : Reading) : Prop where
  lang : r'.lang = r.lang
  reader : r'.reader = r.reader
  filters : r'.filters = r.filters
  extent : ∀ s, r'.locator.extent (m.span s) = m.extent (r.locator.extent s)

/-- A text is mapped to the place that it has moved to. -/
def Maps (m : Move) (r r' : Reading) (code : List Char) (start : Nat) : Prop :=
  ∀ i ≤ Text.byteLength code,
    (r'.map.after (m.offset start)).offset i = m.offset ((r.map.after start).offset i)

/-- The texts in a value are mapped to the places that they have moved to. -/
structure MapsValue (m : Move) (r r' : Reading) (l : Literal) : Prop where
  quoted : r'.isQuoted (m.offset l.extent.span.start) = r.isQuoted l.extent.span.start
  /-- The quote in front of the text moves with it. -/
  start : r.isQuoted l.extent.span.start = true →
    m.offset (l.extent.span.start + 1) = m.offset l.extent.span.start + 1
  maps : r.Maps m r' l.value.toList
    (if r.isQuoted l.extent.span.start then l.extent.span.start + 1 else l.extent.span.start)

/-- The pieces of a name move with it, and the text between the brackets of a dynamic argument is mapped
to the place that it has moved to. -/
structure MapsKey (m : Move) (r r' : Reading) (id : Identifier) : Prop where
  pieces : ∀ k, m.offset (id.extent.span.start + k) = m.offset id.extent.span.start + k
  maps : ∀ p, (KeyParts.ofName id.rawName.toList).tail.argument = some (.dynamic p) →
    r.Maps m r' (p.text.drop 1).dropLast (id.extent.span.start + p.start + 1)

variable {m : Move} {r r' : Reading}

/-- Whether a quote stands somewhere is read off the text. -/
theorem isQuoted_congr {x y : Nat} (htext : r'.text = r.text)
    (h : r'.locator.relative y = r.locator.relative x) : r'.isQuoted y = r.isQuoted x := by
  unfold isQuoted
  rw [htext, h]

theorem Maps.fragment {code : List Char} {start : Nat} (hm : r.Maps m r' code start)
    (h : r.Follows m r') :
    (r.fragment code start).Follows m (r'.fragment code (m.offset start)) :=
  ⟨rfl, h.lang, h.reader, hm⟩

namespace Follows

variable (h : r.Follows m r')
include h

/-! ## Keys -/

theorem pieceExtent {base : Nat} (hb : ∀ k, m.offset (base + k) = m.offset base + k)
    (p : KeyPiece) : r'.pieceExtent (m.offset base) p = m.extent (r.pieceExtent base p) := by
  rw [Reading.pieceExtent, Reading.pieceExtent, ← hb, ← hb]
  exact h.extent ⟨base + p.start, base + p.stop⟩

theorem named {base : Nat} (hb : ∀ k, m.offset (base + k) = m.offset base + k) (p : KeyPiece)
    (name : String) : r'.named (m.offset base) p name = m.identifier (r.named base p name) := by
  rw [Reading.named, h.pieceExtent hb]
  rfl

theorem dynamicArgument {base : Nat} (hb : ∀ k, m.offset (base + k) = m.offset base + k)
    {p : KeyPiece} (hm : r.Maps m r' (p.text.drop 1).dropLast (base + p.start + 1)) :
    r'.dynamicArgument (m.offset base) p = (r.dynamicArgument base p).move m := by
  have hstart : m.offset base + p.start + 1 = m.offset (base + p.start + 1) := by
    rw [Nat.add_assoc, Nat.add_assoc, hb]
  unfold Reading.dynamicArgument
  dsimp only
  rw [hstart, h.pieceExtent hb, Fragment.readExpression_follows (hm.fragment h)]
  exact Contained.ofResult_move ..

theorem key {id : Identifier} (hk : r.MapsKey m r' id) :
    r'.key (m.identifier id) = (m.key (r.key id).1, (r.key id).2.map m.logEntry) := by
  have hargument : ∀ x, (KeyParts.ofName id.rawName.toList).tail.argument = some x →
      r'.argument (m.offset id.extent.span.start) x =
        ((r.argument id.extent.span.start x).map m.argument (List.map m.logEntry)) := by
    intro x hx
    cases x with
    | fixed p =>
      simp only [Reading.argument, identifier, h.named hk.pieces, Prod.map, Move.argument,
        List.map_nil]
    | dynamic p => simp only [Reading.argument, h.dynamicArgument hk.pieces (hk.maps p hx)]; rfl
  have hmap : (KeyParts.ofName id.rawName.toList).tail.argument.map
      (r'.argument (m.offset id.extent.span.start)) =
        ((KeyParts.ofName id.rawName.toList).tail.argument.map
          (r.argument id.extent.span.start)).map (Prod.map m.argument (List.map m.logEntry)) := by
    cases hx : (KeyParts.ofName id.rawName.toList).tail.argument with
    | none => rfl
    | some x => exact congrArg some (hargument x hx)
  have hfault : ∀ x : Nat × KeyFault,
      LogEntry.keyFault (m.offset id.extent.span.start + x.1) x.2 =
        m.logEntry (.keyFault (id.extent.span.start + x.1) x.2) := by
    intro x
    rw [← hk.pieces]
    rfl
  have hidentifier : r'.identifier (m.offset id.extent.span.start) =
      m.identifier ∘ r.identifier id.extent.span.start :=
    funext fun p => h.named hk.pieces p _
  have hname : (m.identifier id).rawName = id.rawName := rfl
  have hextent : (m.identifier id).extent = m.extent id.extent := rfl
  unfold Reading.key
  simp only [hname, hextent, Move.extent_span, Move.span_start, hmap, h.named hk.pieces,
    Reading.impliedModifier, hidentifier, hfault]
  cases (KeyParts.ofName id.rawName.toList).tail.argument.map (r.argument id.extent.span.start) with
  | none =>
    simp only [Move.key, Option.map_none, Option.getD_none, List.nil_append, List.map_append,
      List.map_map]
    split <;> rfl
  | some x =>
    simp only [Move.key, Option.map_some, Option.getD_some, List.map_append, List.map_map, Prod.map]
    split <;> rfl

/-! ## Values -/

theorem readValue {f f' : Fragment} (hf : f.Follows m f') (key : DirectiveKey) :
    r'.readValue (m.key key) f' = m.result m.embedded (r.readValue key f) := by
  have hname : (m.key key).name.name = key.name.name := rfl
  have hargument : (m.key key).argument.isSome = key.argument.isSome := by
    simp only [Move.key, Option.isSome_map]
  unfold Reading.readValue
  rw [hname, hargument, h.filters]
  split
  · exact Fragment.readIteration_follows hf
  · exact Fragment.readParameters_follows hf
  · exact Fragment.readParameters_follows hf
  · exact Fragment.readParameters_follows hf
  · exact Fragment.readExpression_follows hf _
  · split
    · exact Fragment.readHandler_follows hf
    · exact Fragment.readExpression_follows hf _
  · exact Fragment.readExpression_follows hf _

theorem value {l : Literal} (hl : r.MapsValue m r' l) (key : DirectiveKey) :
    r'.value (m.key key) (m.literal l) = (r.value key l).move m := by
  have hstart : (if r'.isQuoted (m.offset l.extent.span.start) then
      m.offset l.extent.span.start + 1 else m.offset l.extent.span.start) =
      m.offset (if r.isQuoted l.extent.span.start then l.extent.span.start + 1
        else l.extent.span.start) := by
    rw [hl.quoted]
    split
    · next hq => exact (hl.start hq).symm
    · rfl
  have hfragment : (r.valueFragment l).Follows m (r'.valueFragment (m.literal l)) := by
    have hf := hl.maps.fragment h
    rw [← hstart] at hf
    exact hf
  unfold Reading.value
  rw [h.readValue hfragment key]
  exact Contained.ofResult_move ..

/-- A directive that is moved is read as the directive itself. -/
theorem directive {a : PlainAttribute} (hk : r.MapsKey m r' a.key)
    (hv : ∀ l, a.value = some l → r.MapsValue m r' l) :
    r'.directive (m.plainAttribute a) = (r.directive a).move m := by
  have hkey : (m.plainAttribute a).key = m.identifier a.key := rfl
  have hvalue : (m.plainAttribute a).value.map (r'.value (m.key (r.key a.key).1)) =
      (a.value.map (r.value (r.key a.key).1)).map (Contained.move m) := by
    cases ha : a.value with
    | none => simp [Move.plainAttribute, ha]
    | some l => simp [Move.plainAttribute, ha, h.value (hv l ha)]
  unfold Reading.directive
  simp only [hkey, h.key hk, hvalue]
  cases a.value.map (r.value (r.key a.key).1) with
  | none =>
    simp only [ReadDirective.move, Move.directive, Option.map_none, Option.getD_none, Array.map_empty,
      List.append_nil, List.map_append]
    rfl
  | some c =>
    simp only [ReadDirective.move, Move.directive, Option.map_some, Option.getD_some, List.map_append]
    rfl

/-- So is a mustache. -/
theorem mustache {value : String} {start : Nat} (hm : r.Maps m r' value.toList start)
    (extent : Extent) :
    r'.mustache value (m.offset start) (m.extent extent) =
      (r.mustache value start extent).move m := by
  unfold Reading.mustache
  rw [h.filters, Fragment.readExpression_follows (hm.fragment h)]
  exact Contained.ofResult_move ..

end Follows
end Reading

/-- The diagnostic of a fault moves with it. -/
theorem LogEntry.diagnostics_logEntry {m : Move} {l l' : Locator}
    (hd : ∀ cause offset, l'.diagnose cause (m.offset offset) =
      m.diagnostic (l.diagnose cause offset)) (log : List LogEntry) :
    (log.map m.logEntry).filterMap (LogEntry.diagnostic? l') =
      (log.filterMap (LogEntry.diagnostic? l)).map m.diagnostic := by
  rw [List.filterMap_map, List.map_filterMap]
  congr 1
  funext entry
  cases entry <;> simp [Move.logEntry, LogEntry.diagnostic?, hd]

end TemplateSyntax
