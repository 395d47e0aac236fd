import TemplateSyntax.Proofs.EmbeddedLocations
import TemplateSyntax.Proofs.FragmentPlaces
import TemplateSyntax.Proofs.GapsMove

/-! # The raw content of embedded texts

Where the raw content of each text that is embedded in a template stands: between the quotes of a
value, the brackets of an argument, or the braces of a mustache.  The map of the template takes no
index of the text out of there, wherever its gaps are. -/

namespace TemplateSyntax

open Text (byteLength Between From)

variable {cs : List Char} {l : Locator} {gaps : Array Nat} {o lo hi i : Nat} {ps : List Piece}

/-! ## Offsets in a range -/

namespace OffsetMap

theorem le_offset (gaps : Array Nat) (b i : Nat) : b ≤ (atOffset gaps b).offset i := by
  have hbase : (atOffset gaps b).base = b := rfl
  unfold offset
  dsimp only
  omega

theorem countP_of_noGap {b stop : Nat} (hno : ∀ x ∈ gaps, b ≤ x → ¬ x < stop) :
    (laterGaps gaps b).countP (· < stop) = 0 := by
  rw [List.countP_eq_zero]
  intro x hx hlt
  have hmem : x ∈ gaps := by
    have := (List.mem_filter.1 hx).1
    rwa [Array.mem_toList_iff] at this
  exact hno x hmem (le_of_mem_laterGaps hx) (of_decide_eq_true hlt)

/-- Where there are no gaps, an index is not mapped behind the end. -/
theorem offset_le_of_noGap (hg : gaps.toList.Pairwise (· < ·)) {b size : Nat}
    (hno : ∀ x ∈ gaps, b ≤ x → ¬ x ≤ b + size) (hi : i ≤ size) :
    (atOffset gaps b).offset i ≤ b + size := by
  have hstop : b + size ∉ gaps := fun hmem => hno _ hmem (Nat.le_add_right ..) (Nat.le_refl _)
  have hcount : (laterGaps gaps b).countP (· < b + size) = 0 :=
    countP_of_noGap fun x hx hlo hlt => hno x hx hlo (Nat.le_of_lt hlt)
  exact offset_le hg hstop (by rw [hcount]; rfl) hi

/-- It is mapped to where it is. -/
theorem offset_of_noGap (hg : gaps.toList.Pairwise (· < ·)) {b : Nat}
    (hno : ∀ x ∈ gaps, b ≤ x → ¬ x ≤ b + i) (hfit : i < Offset.limit) :
    (atOffset gaps b).offset i = b + i := by
  have hstop : b + i ∉ gaps := fun hmem => hno _ hmem (Nat.le_add_right ..) (Nat.le_refl _)
  have hcount : (laterGaps gaps b).countP (· < b + i) = 0 :=
    countP_of_noGap fun x hx hlo hlt => hno x hx hlo (Nat.le_of_lt hlt)
  have hskip : (atOffset gaps b).skipped (b + i) = _ := skipped_eq hg hstop (by rw [hcount]; rfl)
  rw [offset, steps_atOffset hfit]
  show b + i + (atOffset gaps b).skipped (b + i) = b + i
  rw [hskip, hcount, Nat.add_zero]

end OffsetMap

/-- In a decoded range, too. -/
theorem Decodes.offset_le (hg : gaps.toList.Pairwise (· < ·))
    (h : Decodes cs (fun x => o + x ∈ gaps) lo ps hi) (hi' : i ≤ byteLength (Piece.values ps)) :
    (OffsetMap.atOffset gaps (o + lo)).offset i ≤ o + hi := by
  obtain ⟨rfl, -⟩ := h.between
  have hstop : o + (lo + byteLength (Piece.raws ps)) ∉ gaps := by
    intro hmem
    have hgap := (h.gaps _ (Nat.le_add_right ..) (Nat.le_refl _)).1 hmem
    exact absurd (Piece.bounds_of_mem_gapsFrom h.valid hgap).2 (Nat.lt_irrefl _)
  have hall : Decodes cs (fun x => o + x ∈ gaps) lo (ps ++ []) (lo + byteLength (Piece.raws ps)) := by
    rwa [List.append_nil]
  have hcount := countP_laterGaps hg hall
  have hlen := Piece.length_gapsFrom h.valid lo
  rw [Nat.add_assoc] at hcount
  exact OffsetMap.offset_le hg hstop (by omega) hi'

/-- A dynamic argument in a name that stands in the text, with its brackets. -/
theorem Text.Between.dynamicArgument {name : List Char} (h : Between cs lo name hi) {p : KeyPiece}
    (hp : (KeyParts.ofName name).tail.argument = some (.dynamic p)) :
    ∃ code, p.text = '[' :: (code ++ [']']) ∧ Between cs (lo + p.start) ['['] (lo + p.start + 1) ∧
      Between cs (lo + p.start + 1) code (lo + p.start + 1 + byteLength code) ∧
      Between cs (lo + p.start + 1 + byteLength code) [']']
        (lo + p.start + 1 + byteLength code + 1) ∧
      lo + p.start + 1 + byteLength code + 1 ≤ hi := by
  obtain ⟨front, code, back, rfl, hfront, htext⟩ := KeyParts.ofName_dynamic hp
  obtain ⟨rfl, tail, hfrom⟩ := h
  have hopens : From cs (lo + p.start) ('[' :: (code ++ ']' :: (back ++ tail))) := by
    rw [← hfront]
    exact From.append (by simpa using hfrom)
  have hinside : From cs (lo + p.start + 1) (code ++ ']' :: (back ++ tail)) := hopens.cons
  have hopenSize : '['.utf8Size = 1 := rfl
  have hcloseSize : ']'.utf8Size = 1 := rfl
  refine ⟨code, htext, hopens.between_cons, hinside.between, hinside.append.between_cons, ?_⟩
  simp only [Text.byteLength_append, Text.byteLength_cons]
  omega

/-- The text from `lo` to `hi` is cut into pieces that stand for `value`. -/
def Spells (cs : List Char) (lo : Nat) (value : List Char) (hi : Nat) : Prop :=
  ∃ ps : List Piece, (∀ p ∈ ps, p.Valid) ∧ Between cs lo (Piece.raws ps) hi ∧
    Piece.values ps = value

theorem Decodes.spells {gap : Nat → Prop} (h : Decodes cs gap lo ps hi) :
    Spells cs lo (Piece.values ps) hi :=
  ⟨ps, h.valid, h.between, rfl⟩

/-- The indices of the text of a fragment are mapped between `lo` and `hi`. -/
def Fragment.MapsInto (f : Fragment) (l : Locator) (lo hi : Nat) : Prop :=
  ∀ i ≤ byteLength f.code, l.host lo ≤ f.map.offset i ∧ f.map.offset i ≤ l.host hi

/-- Whether a quote stands at an offset is seen from the character there. -/
theorem Reading.isQuoted_host {r : Reading} {x : Nat} {c : Char} {tail : List Char}
    (h : From r.text x (c :: tail)) : r.isQuoted (r.locator.host x) = isQuote c := by
  obtain ⟨pre, hsplit⟩ := h.splitAtByte?
  unfold Reading.isQuoted
  rw [show r.locator.relative (r.locator.host x) = x from Nat.add_sub_cancel_left .., hsplit]
  rfl

/-- A value starts with a character. -/
theorem LiteralContent.first {t : Token} (h : LiteralContent cs l t lo hi) :
    ∃ i c tail, t.extent.span.start = l.host i ∧ From cs i (c :: tail) := by
  cases h with
  | quoted _ hspan hopen => exact ⟨_, _, _, congrArg Span.start hspan, hopen.2.choose_spec⟩
  | unclosed _ hspan hopen => exact ⟨_, _, _, congrArg Span.start hspan, hopen.2.choose_spec⟩
  | bare hspan hfirst => exact ⟨_, _, _, congrArg Span.start hspan, hfirst⟩

/-- A quote in front of a value is no part of its text. -/
theorem LiteralContent.quoted_start {r : Reading} {t : Token}
    (h : LiteralContent r.text r.locator t lo hi) :
    (if r.isQuoted t.extent.span.start then t.extent.span.start + 1 else t.extent.span.start) =
      r.locator.host lo := by
  have hopens : ∀ {x : Nat} {q : Char}, isQuote q = true → Between r.text x [q] (x + 1) →
      r.isQuoted (r.locator.host x) = true := by
    intro x q hq hopen
    obtain ⟨-, tail, hfrom⟩ := hopen
    exact (Reading.isQuoted_host hfrom).trans hq
  cases h with
  | quoted hq hspan hopen =>
    rw [hspan, if_pos (hopens hq hopen)]
    rfl
  | unclosed hq hspan hopen =>
    rw [hspan, if_pos (hopens hq hopen)]
    rfl
  | bare hspan hfirst hq =>
    rw [hspan, if_neg]
    rw [Reading.isQuoted_host hfirst, hq]
    exact Bool.false_ne_true

namespace Template

/-! ## Embedded texts -/

/-- The text `code` is embedded in the node `id` at `extent`, and its raw content stands from `lo` to
`hi`: it is the value of an attribute, a dynamic argument in the name of one, or a mustache. -/
inductive Embeds (text : String) (o : Options) : Nat → Extent → List Char → Nat → Nat → Prop
  | value {id : Nat} {e : Element} {a : PlainAttribute} {v : Literal} {t : Token} {lo hi : Nat}
      (he : (outlineOf text o).tree.element? id = some e) (ha : .plain a ∈ e.attributes)
      (hv : a.value = some v) (ht : t.extent = v.extent)
      (h : LiteralContent text.toList (locatorOf text o) t lo hi)
      (hcode : Spells text.toList lo v.value.toList hi) :
      Embeds text o id v.extent v.value.toList lo hi
  | argument {id : Nat} {e : Element} {a : PlainAttribute} {extent : Extent} {code : List Char}
      {i hi : Nat} (he : (outlineOf text o).tree.element? id = some e)
      (ha : .plain a ∈ e.attributes)
      (hin : a.key.extent.span.start ≤ extent.span.start ∧
        extent.span.stop ≤ a.key.extent.span.stop)
      (hspan : extent.span = ⟨(locatorOf text o).host i, (locatorOf text o).host (hi + 1)⟩)
      (hopen : Between text.toList i ['['] (i + 1)) (hcode : Between text.toList (i + 1) code hi)
      (hclose : Between text.toList hi [']'] (hi + 1)) :
      Embeds text o id extent code (i + 1) hi
  | mustache {m : PendingMustache} {n : Node} {lo hi : Nat}
      (hm : m ∈ (outlineOf text o).mustaches)
      (hn : (outlineOf text o).tree.node? m.node = some n)
      (h : MustacheContent text.toList (locatorOf text o) m lo hi)
      (hcode : Spells text.toList lo m.value.toList hi) :
      Embeds text o m.node n.extent m.value.toList lo hi

variable (text : String) (o : Options) (reader : Script.Reader) {id : Nat} {e : Element}
  {a : PlainAttribute}

/-- The fragment of the text `code` whose raw content starts at `lo`. -/
def fragmentAt (code : List Char) (lo : Nat) : Fragment :=
  (readingOf text o reader).fragment code ((locatorOf text o).host lo)

/-- A text is embedded, and is mapped into its raw content. -/
structure EmbedsAt (id : Nat) (extent : Extent) (code : List Char) (lo hi : Nat) : Prop where
  embeds : Embeds text o id extent code lo hi
  mapped : (fragmentAt text o reader code lo).MapsInto (locatorOf text o) lo hi

variable {text o reader}

theorem fragmentAt_map (code : List Char) (lo : Nat) : (fragmentAt text o reader code lo).map =
    OffsetMap.atOffset (builderOf text o).lexer.sortedGaps ((locatorOf text o).host lo) := by
  rw [← readingOf_gaps text o reader]
  rfl

/-- The text of a decoded range is mapped into the range. -/
theorem mapsInto_of_decodes {gap : Nat → Prop} {ps : List Piece} {lo hi : Nat}
    (hgap : ∀ x, gap x ↔ (locatorOf text o).host x ∈ (builderOf text o).lexer.sortedGaps)
    (h : Decodes text.toList gap lo ps hi) {code : List Char} (hcode : Piece.values ps = code) :
    (fragmentAt text o reader code lo).MapsInto (locatorOf text o) lo hi := by
  subst hcode
  intro i hi'
  rw [fragmentAt_map]
  have hsorted := (builderOf text o).lexer.sortedGaps_spec.1
  exact ⟨OffsetMap.le_offset _ _ i,
    Decodes.offset_le hsorted (h.mono fun x _ => (hgap x).symm) hi'⟩

/-- Where gaps are on record. -/
theorem hasGap_iff {taken : List Token} (hwhole : Whole text.toList (locatorOf text o) taken
    (builderOf text o)) (x : Nat) : (builderOf text o).lexer.HasGap x ↔
      (locatorOf text o).host x ∈ (builderOf text o).lexer.sortedGaps := by
  rw [(builderOf text o).lexer.sortedGaps_spec.2, Lexer.HasGap, hwhole.locator]

/-- The value of an attribute decodes the raw content of its token. -/
theorem literal_decodes (he : (outlineOf text o).tree.element? id = some e)
    (ha : .plain a ∈ e.attributes) {v : Literal} (hv : a.value = some v) :
    ∃ t lo hi ps, t.extent = v.extent ∧ LiteralContent text.toList (locatorOf text o) t lo hi ∧
      Decodes text.toList (fun x => (locatorOf text o).host x ∈ (builderOf text o).lexer.sortedGaps) lo
        ps hi ∧ Piece.values ps = v.value.toList := by
  obtain ⟨taken, hwhole⟩ := builderOf_whole text o
  obtain ⟨m₀, p₀, hstream⟩ := hwhole.tracks.stream
  rw [hwhole.locator] at hstream
  rw [outlineOf_tree] at he
  obtain ⟨ns, y, hy, hfrom⟩ := hwhole.attributes id e he _ ha
  obtain rfl := Attribute.plain.inj hy
  obtain ⟨t, ht, rfl⟩ := Option.map_eq_some_iff.1 hv
  obtain ⟨htaken, hk⟩ := hfrom.value t ht
  obtain ⟨m₁, p₁, pt, j, m₂, rfl, hlexed⟩ := hstream.exists_lexed htaken
  obtain ⟨lo, hi, ps, hcontent, hps, hvalue⟩ := hlexed.literal_decodes hk
  exact ⟨_, lo, hi, ps, rfl, hcontent, hps.mono fun x _ => (hasGap_iff hwhole x).symm, hvalue⟩

/-- It is embedded where its token stands. -/
theorem exists_literal (reader : Script.Reader)
    (he : (outlineOf text o).tree.element? id = some e)
    (ha : .plain a ∈ e.attributes) {v : Literal} (hv : a.value = some v) :
    ∃ t lo hi, t.extent = v.extent ∧ LiteralContent text.toList (locatorOf text o) t lo hi ∧
      EmbedsAt text o reader id v.extent v.value.toList lo hi := by
  obtain ⟨t, lo, hi, ps, ht, hcontent, hps, hvalue⟩ := literal_decodes he ha hv
  exact ⟨t, lo, hi, ht, hcontent, .value he ha hv ht hcontent (hvalue ▸ hps.spells),
    mapsInto_of_decodes (fun _ => Iff.rfl) hps hvalue⟩

/-- It is read from where its raw content starts. -/
theorem embedsAt_value (reader : Script.Reader)
    (he : (outlineOf text o).tree.element? id = some e)
    (ha : .plain a ∈ e.attributes) {v : Literal} (hv : a.value = some v) :
    ∃ lo hi, EmbedsAt text o reader id v.extent v.value.toList lo hi ∧
      (readingOf text o reader).valueFragment v = fragmentAt text o reader v.value.toList lo := by
  obtain ⟨t, lo, hi, ht, hcontent, hat⟩ := exists_literal reader he ha hv
  have hstart := LiteralContent.quoted_start (r := readingOf text o reader) hcontent
  rw [ht] at hstart
  exact ⟨lo, hi, hat, congrArg ((readingOf text o reader).fragment _) hstart⟩

/-- So is a text without gaps. -/
theorem mapsInto_of_noGap {code : List Char} {lo : Nat}
    (hno : ∀ x, lo ≤ x → x ≤ lo + byteLength code →
      (locatorOf text o).host x ∉ (builderOf text o).lexer.sortedGaps) :
    (fragmentAt text o reader code lo).MapsInto (locatorOf text o) lo (lo + byteLength code) := by
  intro i hi
  rw [fragmentAt_map]
  refine ⟨OffsetMap.le_offset _ _ i, ?_⟩
  have hle : (OffsetMap.atOffset (builderOf text o).lexer.sortedGaps
      ((locatorOf text o).host lo)).offset i ≤ (locatorOf text o).host lo + byteLength code := by
    refine OffsetMap.offset_le_of_noGap (builderOf text o).lexer.sortedGaps_spec.1
      (fun x hx hlo hhi => ?_) hi
    obtain ⟨z, rfl⟩ : ∃ z, x = (locatorOf text o).host z :=
      ⟨x - (locatorOf text o).origin.offset, by unfold Locator.host at *; omega⟩
    simp only [Locator.host] at hlo hhi
    exact hno z (by omega) (by omega) hx
  simpa only [Locator.host, Nat.add_assoc] using hle

/-- The name of an attribute stands in the text, and no gap is in it. -/
theorem exists_name (he : (outlineOf text o).tree.element? id = some e)
    (ha : .plain a ∈ e.attributes) :
    ∃ i f j, a.key.extent.span = ⟨(locatorOf text o).host i, (locatorOf text o).host j⟩ ∧
      Between text.toList i a.key.rawName.toList f ∧ f ≤ j ∧ ∀ x, i ≤ x → x ≤ f →
        (locatorOf text o).host x ∉ (builderOf text o).lexer.sortedGaps := by
  obtain ⟨taken, hwhole⟩ := builderOf_whole text o
  obtain ⟨m₀, p₀, hstream⟩ := hwhole.tracks.stream
  rw [hwhole.locator] at hstream
  obtain ⟨ns, y, hy, hfrom⟩ := hwhole.attributes id e (outlineOf_tree text o ▸ he) _ ha
  obtain ⟨htaken, hk⟩ := hfrom.key
  obtain ⟨m₁, p₁, t, j, m₂, hkey, hlexed⟩ := hstream.exists_lexed htaken
  rw [hkey] at hk
  obtain ⟨f, hfj, hbetween, hnoGap⟩ := hlexed.identifier hk
  have hname : a.key.rawName = t.value := by
    rw [Attribute.plain.inj hy]
    exact congrArg Token.value hkey
  have hextent : a.key.extent.span =
      ⟨(locatorOf text o).host t.start, (locatorOf text o).host j⟩ := by
    rw [Attribute.plain.inj hy]
    exact congrArg (fun x : Token => x.extent.span) hkey
  refine ⟨t.start, f, j, hextent, hname ▸ hbetween, hfj, fun x hlo hhi hx => ?_⟩
  exact hnoGap x hlo hhi ((hasGap_iff hwhole x).2 hx)

/-- A dynamic argument stands in the text between its brackets, and no gap is in it. -/
theorem exists_argument (he : (outlineOf text o).tree.element? id = some e)
    (ha : .plain a ∈ e.attributes) {p : KeyPiece}
    (hp : (KeyParts.ofName a.key.rawName.toList).tail.argument = some (.dynamic p)) :
    ∃ i code, p.text = '[' :: (code ++ [']']) ∧
      a.key.extent.span.start + p.start = (locatorOf text o).host i ∧
      (locatorOf text o).host (i + 1 + byteLength code + 1) ≤ a.key.extent.span.stop ∧
      Between text.toList i ['['] (i + 1) ∧
      Between text.toList (i + 1) code (i + 1 + byteLength code) ∧
      Between text.toList (i + 1 + byteLength code) [']'] (i + 1 + byteLength code + 1) ∧
      ∀ x, i + 1 ≤ x → x ≤ i + 1 + byteLength code →
        (locatorOf text o).host x ∉ (builderOf text o).lexer.sortedGaps := by
  obtain ⟨i, f, j, hextent, hbetween, hfj, hnoGap⟩ := exists_name he ha
  obtain ⟨code, htext, hopen, hinside, hclose, hstop⟩ := hbetween.dynamicArgument hp
  refine ⟨i + p.start, code, htext, ?_, ?_, hopen, hinside, hclose, fun x hlo hhi =>
    hnoGap x (by omega) (by omega)⟩
  · rw [hextent]
    simp only [Locator.host, Nat.add_assoc]
  · rw [hextent]
    simp only [Locator.host]
    omega

/-- It is embedded, and is read from where its raw content starts. -/
theorem embedsAt_argument (reader : Script.Reader)
    (he : (outlineOf text o).tree.element? id = some e)
    (ha : .plain a ∈ e.attributes) {p : KeyPiece}
    (hp : (KeyParts.ofName a.key.rawName.toList).tail.argument = some (.dynamic p)) :
    ∃ lo hi, EmbedsAt text o reader id
        ((readingOf text o reader).pieceExtent a.key.extent.span.start p)
        (p.text.drop 1).dropLast lo hi ∧
      a.key.extent.span.start + p.start + 1 = (locatorOf text o).host lo := by
  obtain ⟨i, code, htext, hstart, hstop, hopen, hinside, hclose, hnoGap⟩ := exists_argument he ha hp
  have hcode : (p.text.drop 1).dropLast = code := by
    rw [htext]
    simp
  have hspan : ((readingOf text o reader).pieceExtent a.key.extent.span.start p).span =
      ⟨(locatorOf text o).host i, (locatorOf text o).host (i + 1 + byteLength code + 1)⟩ := by
    have hopenSize : '['.utf8Size = 1 := rfl
    have hcloseSize : ']'.utf8Size = 1 := rfl
    have hsize : byteLength p.text = byteLength code + 2 := by
      rw [htext, Text.byteLength_cons, Text.byteLength_append, Text.byteLength_cons,
        Text.byteLength_nil]
      omega
    show (⟨_ + p.start, _ + (p.start + byteLength p.text)⟩ : Span) = _
    rw [← Nat.add_assoc, hstart, hsize]
    simp only [Locator.host, Span.mk.injEq, true_and]
    omega
  rw [hcode]
  refine ⟨i + 1, i + 1 + byteLength code,
    ⟨.argument he ha ?_ hspan hopen hinside hclose, mapsInto_of_noGap hnoGap⟩, ?_⟩
  · rw [hspan]
    exact ⟨Nat.le_of_add_right_le (Nat.le_of_eq hstart), hstop⟩
  · rw [hstart]
    simp only [Locator.host, Nat.add_assoc]

/-- The text of a mustache decodes what stands between its braces. -/
theorem mustache_decodes {m : PendingMustache} (hm : m ∈ (outlineOf text o).mustaches) :
    ∃ lo hi ps, MustacheContent text.toList (locatorOf text o) m lo hi ∧
      Decodes text.toList (fun x => (locatorOf text o).host x ∈ (builderOf text o).lexer.sortedGaps) lo
        ps hi ∧ Piece.values ps = m.value.toList := by
  obtain ⟨taken, hwhole⟩ := builderOf_whole text o
  obtain ⟨m₀, p₀, hstream⟩ := hwhole.tracks.stream
  rw [hwhole.locator] at hstream
  rw [outlineOf_mustaches] at hm
  obtain ⟨-, y, hy, hvalue, hstart⟩ := hwhole.mustaches m hm
  obtain ⟨lo, hi, i, j, hlo, hopen, hclose, ps, hps, hv⟩ := hy.decoded hstream
  exact ⟨lo, hi, ps, ⟨hstart.trans hlo, ⟨i, hopen⟩, ⟨j, hclose⟩⟩,
    hps.mono fun x _ => (hasGap_iff hwhole x).symm, by rw [hv, hvalue]⟩

/-- It is embedded there, and is read from where its raw content starts. -/
theorem embedsAt_mustache (reader : Script.Reader) {m : PendingMustache}
    (hm : m ∈ (outlineOf text o).mustaches) {n : Node} (hn : (outlineOf text o).tree.node? m.node = some n) :
    ∃ lo hi, EmbedsAt text o reader m.node n.extent m.value.toList lo hi ∧
      m.start = (locatorOf text o).host lo := by
  obtain ⟨lo, hi, ps, hcontent, hps, hv⟩ := mustache_decodes hm
  exact ⟨lo, hi, ⟨.mustache hm hn hcontent (hv ▸ hps.spells),
    mapsInto_of_decodes (fun _ => Iff.rfl) hps hv⟩, hcontent.start⟩

end Template
end TemplateSyntax
