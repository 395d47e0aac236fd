import TemplateSyntax.Proofs.LineSearch
import TemplateSyntax.Proofs.OriginMove
import TemplateSyntax.Proofs.SpotsInside

/-! # Nothing fails

Reading a template never meets a case that it relies on not to come up, if only the places of the
template are words: its last offset, its last line, and the columns of its first line.  Then no offset,
line or column that is worked out on the way is too large, whatever the reader of scripts reports, and
each text that is cut out stands where it is looked for. -/

namespace TemplateSyntax

open Text (byteLength Between)

/-! ## Lines and columns -/

namespace LineIndex

/-- The line that is looked up is one of the text, and the column is no further than its size. -/
theorem lineCol_bounds (cs : List Char) (offset : Nat) :
    ((ofChars cs).lineCol offset).line < (ofChars cs).lineCount ∧
      ((ofChars cs).lineCol offset).col ≤ (ofChars cs).size := by
  obtain ⟨hline, -⟩ := lineOf_spec (sorted_ofChars cs) rfl (min offset (ofChars cs).size)
  exact ⟨hline, Nat.le_trans (Nat.sub_le _ _) (Nat.min_le_right _ _)⟩

end LineIndex

theorem Offset.check_of_lt {n : Nat} (h : n < limit) : check n = some n :=
  check_eq_some_iff.2 ⟨rfl, h⟩

/-! ## Fragments -/

/-- The wrappings that fragments are put into. -/
def Wrapping.inUse : List Wrapping := [.expression, .aliases, .statements, .parameters]

/-- `host`, if all shifts and offsets on the way fit their words. -/
def Wrapped.host? (w : Wrapped) (index : Nat) : Option Nat := do
  let map ← w.fragment.map.shift? (-(w.lo : Int))
  map.offset? (min (max index w.lo) w.hi)

/-- What is worked out with the map of a fragment fits its word: the offsets of the indices of its
text and of any wrapped text, and the maps of its parts. -/
structure Fragment.Checked (f : Fragment) : Prop where
  offset : ∀ i ≤ byteLength f.code, f.map.offset? i = some (f.map.offset i)
  shift : ∀ start : Nat, start ≤ byteLength f.code → f.map.shift? start = some (f.map.shift start)
  host : ∀ w ∈ Wrapping.inUse, ∀ i,
    (Wrapped.mk f w).host? i = some ((Wrapped.mk f w).host i)

/-- All that is read of a fragment is read of parts that stand in its text, and what is worked out with
the map of a part fits its word. -/
structure Fragment.ReadsParts (f : Fragment) (read : Fragment → Except ReadFailure Embedded) :
    Prop where
  sound : f.Sound f.Gives (read f)
  parts : ∀ g : Fragment, g.PartOf f → g.Checked

namespace OffsetMap

theorem fits64_of_small {n : Int} (hlo : -0x10000000000 ≤ n) (hhi : n ≤ 0x10000000000) :
    fits64 n = true := by
  unfold fits64
  rw [Bool.and_eq_true, decide_eq_true_eq, decide_eq_true_eq]
  omega

theorem offset?_eq {m : OffsetMap} {i : Nat} (hfits : fits64 (i + m.shiftBy) = true)
    (h : m.offset i < Offset.limit) : m.offset? i = some (m.offset i) := by
  rw [offset?, if_pos hfits]
  exact Offset.check_of_lt h

end OffsetMap

/-- A wrapping in use is short. -/
theorem Wrapping.before_le {w : Wrapping} (h : w ∈ inUse) : byteLength w.before ≤ 22 := by
  have hall : ∀ w ∈ inUse, byteLength w.before ≤ 22 := by decide
  exact hall w h

/-- The parts of a short text all of whose indices have words for their offsets. -/
theorem Fragment.PartOf.checked {g f : Fragment} (hg : g.PartOf f) (hshift : f.map.shiftBy = 0)
    (hsize : byteLength f.code < Offset.limit)
    (hoffset : ∀ i ≤ byteLength f.code, f.map.offset i < Offset.limit) : g.Checked := by
  obtain ⟨start, hin, hmap⟩ := hg.place
  have hle := hin.le_size
  have hlimit : Offset.limit = 0x100000000 := rfl
  have hby : g.map.shiftBy = start := by
    rw [hmap, OffsetMap.shift, hshift, Int.zero_add]
  have hword : ∀ i ≤ byteLength g.code, g.map.offset i < Offset.limit := by
    intro i hi
    rw [hmap, OffsetMap.offset_shift (j := start + i) f.map (by omega)]
    exact hoffset (start + i) (by omega)
  refine ⟨fun i hi => ?_, fun s hs => ?_, fun w hw i => ?_⟩
  · exact OffsetMap.offset?_eq (OffsetMap.fits64_of_small (by omega) (by omega)) (hword i hi)
  · rw [OffsetMap.shift?, if_pos (OffsetMap.fits64_of_small (by omega) (by omega))]
  · have hshort := Wrapping.before_le hw
    have hlo : (Wrapped.mk g w).lo = byteLength w.before := rfl
    have hhi : (Wrapped.mk g w).hi = byteLength w.before + byteLength g.code := rfl
    have hsmall : OffsetMap.fits64 (g.map.shiftBy + -((Wrapped.mk g w).lo : Int)) = true :=
      OffsetMap.fits64_of_small (by omega) (by omega)
    rw [Wrapped.host?, OffsetMap.shift?, if_pos hsmall, Option.bind_eq_bind, Option.bind_some]
    refine OffsetMap.offset?_eq (OffsetMap.fits64_of_small ?_ ?_) ?_
    · simp only [OffsetMap.shift]
      omega
    · simp only [OffsetMap.shift]
      omega
    · have hhost := (Wrapped.mk g w).host_eq i
      rw [Wrapped.host] at hhost
      rw [hhost]
      exact hword _ (by omega)

namespace Template

/-- The places of a template are words. -/
structure Fits (text : String) (o : Options) : Prop where
  offset : o.origin.offset + byteLength text.toList < Offset.limit
  line : o.origin.line + (locatorOf text o).index.lineCount < Offset.limit
  column : o.origin.column + byteLength text.toList < Offset.limit

variable {text : String} {o : Options} {reader : Script.Reader} {id : Nat} {extent : Extent}
  {code : List Char} {lo hi : Nat}

/-- All positions are words. -/
theorem Fits.position (h : Fits text o) (offset : Nat) :
    ((locatorOf text o).position offset).line < Offset.limit ∧
      ((locatorOf text o).position offset).column < Offset.limit := by
  obtain ⟨hoffset, hline, hcolumn⟩ := h
  obtain ⟨hl, hc⟩ := LineIndex.lineCol_bounds text.toList ((locatorOf text o).relative offset)
  have hindex : (locatorOf text o).index = LineIndex.ofChars text.toList := rfl
  rw [← hindex] at hl hc
  rw [locatorOf_size] at hc
  have horigin : (locatorOf text o).origin = o.origin := rfl
  unfold Locator.position Locator.place
  dsimp only
  rw [horigin]
  refine ⟨by omega, ?_⟩
  split <;> omega

/-- So are all offsets of the template. -/
theorem Fits.host_lt (h : Fits text o) {i : Nat} (hi : i ≤ byteLength text.toList) :
    (locatorOf text o).host i < Offset.limit :=
  Nat.lt_of_le_of_lt (Nat.add_le_add_left hi o.origin.offset) h.offset

/-- An embedded text is not longer than its raw content. -/
theorem Embeds.length_le (h : Embeds text o id extent code lo hi) : lo + byteLength code ≤ hi := by
  have hspells : ∀ {code : List Char} {lo : Nat}, Spells text.toList lo code hi →
      lo + byteLength code ≤ hi := by
    rintro code lo ⟨ps, hvalid, hbetween, rfl⟩
    have hle := Piece.values_le hvalid
    have hhi := hbetween.1
    omega
  cases h with
  | value _ _ _ _ _ hcode => exact hspells hcode
  | argument _ _ _ _ _ hcode => exact Nat.le_of_eq hcode.1.symm
  | mustache _ _ _ hcode => exact hspells hcode

/-- Whatever part of an embedded text is read, the offsets in it are words. -/
theorem EmbedsAt.checked (h : EmbedsAt text o reader id extent code lo hi) (hfits : Fits text o) :
    ∀ g : Fragment, g.PartOf (fragmentAt text o reader code lo) → g.Checked := by
  intro g hg
  have hle := h.embeds.le_size
  have hlength := h.embeds.length_le
  have hoffset := hfits.offset
  have hcode : (fragmentAt text o reader code lo).code = code := rfl
  refine hg.checked rfl ?_ fun i hi => ?_
  · rw [hcode]
    omega
  · exact Nat.lt_of_le_of_lt (h.mapped i hi).2 (hfits.host_lt hle)

/-- Nothing that the reading of a template relies on fails, and what is worked out on the way are
words. -/
structure NothingFails (text : String) (o : Options) (reader : Script.Reader) : Prop where
  /-- No check fails. -/
  noBreach : (parse text o reader).breaches = []
  /-- Offsets of the template. -/
  hosts : ∀ i ≤ byteLength text.toList,
    (locatorOf text o).host? i = some ((locatorOf text o).host i)
  /-- Lines and columns of whatever index: there is such a line, and it starts at or before the
  index. -/
  lines : ∀ index, (locatorOf text o).index.lineCol? index =
    some ((locatorOf text o).index.lineCol index)
  /-- Positions of whatever offset. -/
  positions : ∀ offset,
    (locatorOf text o).position? offset = some ((locatorOf text o).position offset)
  /-- All offsets and positions of the result. -/
  spots : ∀ s ∈ (parse text o reader).spots, Offset.check s.offset = some s.offset ∧
    ∀ p, s.position = some p →
      Offset.check p.line = some p.line ∧ Offset.check p.column = some p.column
  /-- The parts that the name of an attribute is cut into, and the offsets of its indices. -/
  names : ∀ id e a, (outlineOf text o).tree.element? id = some e → .plain a ∈ e.attributes →
    (KeyParts.ofName a.key.rawName.toList).written.StandsIn a.key.rawName.toList ∧
    (KeyParts.ofName a.key.rawName.toList).tail.StandsIn a.key.rawName.toList ∧
    ∀ i ≤ byteLength a.key.rawName.toList,
      Offset.check (a.key.extent.span.start + i) = some (a.key.extent.span.start + i)
  /-- The parts that the value of an attribute is cut into. -/
  values : ∀ id e a v, (outlineOf text o).tree.element? id = some e → .plain a ∈ e.attributes →
    a.value = some v → ∀ key, ((readingOf text o reader).valueFragment v).ReadsParts
      ((readingOf text o reader).readValue key)
  /-- The parts that a dynamic argument is cut into. -/
  arguments : ∀ id e a p, (outlineOf text o).tree.element? id = some e →
    .plain a ∈ e.attributes →
    (KeyParts.ofName a.key.rawName.toList).tail.argument = some (.dynamic p) →
    ((readingOf text o reader).fragment (p.text.drop 1).dropLast
      (a.key.extent.span.start + p.start + 1)).ReadsParts fun f => f.readExpression false
  /-- The parts that a mustache is cut into. -/
  mustaches : ∀ m ∈ (outlineOf text o).mustaches,
    ((readingOf text o reader).fragment m.value.toList m.start).ReadsParts
      fun f => f.readExpression (readingOf text o reader).filters

/-- Nothing fails in a template whose places are words, whatever reads the scripts in it. -/
theorem parse_nothingFails (text : String) (o : Options) (reader : Script.Reader)
    (h : Fits text o) : NothingFails text o reader := by
  have hsize := locatorOf_size text o
  refine ⟨breaches_eq_nil text o, fun i hi => Offset.check_of_lt (h.host_lt hi),
    fun _ => LineIndex.lineCol?_eq .., fun offset => ?_,
    fun s hs => ?_, fun id e a he ha => ?_, fun id e a v he ha hv key => ?_,
    fun id e a p he ha hp => ?_, fun m hm => ?_⟩
  · obtain ⟨hline, hcolumn⟩ := h.position offset
    rw [Locator.position?, show (locatorOf text o).index = LineIndex.ofChars text.toList from rfl,
      LineIndex.lineCol?_eq, Option.bind_eq_bind, Option.bind_some]
    rw [Locator.position] at hline hcolumn
    exact (congrArg (Option.bind · _) (Offset.check_of_lt hline)).trans
      (congrArg (Option.bind · _) (Offset.check_of_lt hcolumn))
  · have hle := (spots_inText text o reader s hs).2
    rw [hsize] at hle
    refine ⟨Offset.check_of_lt (Nat.lt_of_le_of_lt hle (h.host_lt (Nat.le_refl _))), fun p hp => ?_⟩
    obtain ⟨hline, hcolumn⟩ := h.position s.offset
    rw [← spots_exact text o hs hp] at hline hcolumn
    exact ⟨Offset.check_of_lt hline, Offset.check_of_lt hcolumn⟩
  · obtain ⟨hwritten, htail⟩ := KeyParts.ofName_standsIn a.key.rawName.toList
    refine ⟨hwritten, htail, fun i hi => Offset.check_of_lt ?_⟩
    have hle := (nameIndex_inText he ha hi).2
    rw [hsize] at hle
    exact Nat.lt_of_le_of_lt hle (h.host_lt (Nat.le_refl _))
  · obtain ⟨lo, hi, hat, hfragment⟩ := embedsAt_value reader he ha hv
    rw [hfragment]
    exact ⟨Reading.readValue_sound _ key _, hat.checked h⟩
  · obtain ⟨lo, hi, hat, hstart⟩ := embedsAt_argument reader he ha hp
    rw [hstart]
    exact ⟨Fragment.readExpression_sound _ _, hat.checked h⟩
  · obtain ⟨taken, hwhole⟩ := builderOf_whole text o
    obtain ⟨⟨n, hn, -⟩, -⟩ := hwhole.mustaches m (outlineOf_mustaches text o ▸ hm)
    obtain ⟨lo, hi, hat, hstart⟩ := embedsAt_mustache reader hm (outlineOf_tree text o ▸ hn)
    rw [hstart]
    exact ⟨Fragment.readExpression_sound _ _, hat.checked h⟩

/-- The theorem at a template with a directive, a dynamic argument and a mustache, in the middle of a
line. -/
theorem parse_nothingFails_of_binding :
    let text := "<a v-on:[b].c=\"d|e\">\x7b\x7b f \x7d\x7d\n</a>"
    let o : Options := { origin := ⟨10, 2, 4⟩ }
    Fits text o ∧ NothingFails text o Script.parse := by
  intro text o
  have hfits : Fits text o := ⟨by decide, by decide, by decide⟩
  exact ⟨hfits, parse_nothingFails text o Script.parse hfits⟩

end Template
end TemplateSyntax
