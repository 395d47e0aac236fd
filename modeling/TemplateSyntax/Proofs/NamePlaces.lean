import TemplateSyntax.Proofs.EmbeddedInside
import TemplateSyntax.Proofs.ExpressionFailures
import TemplateSyntax.Proofs.FragmentNames

/-! # The places of names

The text of a fragment is cut into pieces of the template, and the map of the fragment answers at each
border between two of them where the raw text goes on.  So a word of the fragment that is made of
characters which are copied stands in the template at the span of the word.  References and variables are
names of the fragments that they are read of. -/

namespace TemplateSyntax

open Script
open Text (Between From byteLength)

/-! ## Pieces of a range -/

namespace Piece

/-- A character that is copied. -/
def IsCopy (p : Piece) : Prop := ∃ c, p = ⟨[c], [c]⟩

/-- No character reference stands for a part of the value from `i` to `j`. -/
def NoReference (ps : List Piece) (i j : Nat) : Prop :=
  ∀ as p bs, ps = as ++ p :: bs → byteLength (values as) < j →
    i < byteLength (values as) + byteLength p.value → ¬ IsReference p.raw p.value

variable {ps bs : List Piece} {front mid back : List Char} {c : Char}

/-- A place of the value at which a character is copied is a border between two pieces. -/
theorem values_split (h : values ps = front ++ c :: back)
    (hcopy : ∀ as p bs, ps = as ++ p :: bs → byteLength (values as) ≤ byteLength front →
      byteLength front < byteLength (values as) + byteLength p.value → p.IsCopy) :
    ∃ as bs, ps = as ++ bs ∧ values as = front ∧ values bs = c :: back := by
  induction ps generalizing front with
  | nil => simp at h
  | cons p ps ih =>
    cases front with
    | nil => exact ⟨[], p :: ps, rfl, rfl, h⟩
    | cons d front =>
      -- the first piece is not the one at the place
      have hle : byteLength p.value ≤ byteLength (d :: front) := by
        by_contra hlt
        obtain ⟨x, rfl⟩ := hcopy [] p ps rfl (Nat.zero_le _) (by simpa using hlt)
        obtain ⟨rfl, -⟩ := List.cons.inj h
        simp at hlt
      obtain ⟨front', hfront, hrest⟩ : ∃ front', d :: front = p.value ++ front' ∧
          values ps = front' ++ c :: back := by
        rcases List.append_eq_append_iff.1 ((values_cons p ps).symm.trans h) with
          ⟨rest, hfront, hrest⟩ | ⟨rest, hvalue, hrest⟩
        · exact ⟨rest, hfront, hrest⟩
        · rw [hvalue, Text.byteLength_append] at hle
          obtain rfl := Text.byteLength_eq_zero.1 (show byteLength rest = 0 by omega)
          exact ⟨[], by rw [hvalue, List.append_nil, List.append_nil], hrest.symm⟩
      obtain ⟨as, bs, rfl, has, hbs⟩ := ih hrest fun as q bs hps hlo hhi => by
        refine hcopy (p :: as) q bs (congrArg (p :: ·) hps) ?_ ?_
        all_goals
          rw [hfront, values_cons, Text.byteLength_append, Text.byteLength_append]
          omega
      exact ⟨p :: as, bs, rfl, by rw [values_cons, has, hfront], hbs⟩

/-- A text that is made of copied characters. -/
theorem copies_of_values (h : values ps = mid ++ back)
    (hcopy : ∀ as p bs, ps = as ++ p :: bs → byteLength (values as) < byteLength mid → p.IsCopy) :
    ∃ bs, ps = copies mid ++ bs := by
  induction mid generalizing ps with
  | nil => exact ⟨ps, rfl⟩
  | cons c mid ih =>
    cases ps with
    | nil => simp at h
    | cons p ps =>
      have hpos := Text.utf8Size_pos c
      obtain ⟨d, rfl⟩ := hcopy [] p ps rfl (by simp; omega)
      obtain ⟨rfl, hrest⟩ := List.cons.inj h
      obtain ⟨bs, rfl⟩ := ih hrest fun as q bs hps hlt =>
        hcopy (_ :: as) q bs (congrArg (_ :: ·) hps) (by simp; omega)
      exact ⟨bs, rfl⟩

end Piece

/-! ## Fragments in pieces -/

/-- The text of the fragment is cut into pieces, whose raw text stands in `cs` from `lo` on, and the map
answers at each border where the raw text goes on. -/
structure Fragment.CutInto (f : Fragment) (cs : List Char) (l : Locator) (lo : Nat) (ps : List Piece) :
    Prop where
  pieces : ∀ p ∈ ps, p.Valid ∨ p.IsCopy
  code : f.code = Piece.values ps
  raw : ∃ hi, Between cs lo (Piece.raws ps) hi
  borders : byteLength cs < Offset.limit → ∀ as bs, ps = as ++ bs →
    f.map.offset (byteLength (Piece.values as)) = l.host (lo + byteLength (Piece.raws as))

namespace Fragment

variable {f : Fragment} {cs raw : List Char} {l : Locator} {lo i j : Nat} {ps : List Piece}

/-- A piece that has a part of a word, and is no character reference, is a copied character. -/
theorem CutInto.isCopy (h : f.CutInto cs l lo ps) (hin : Between f.code i raw j)
    (hword : ∀ c ∈ raw, isWordChar c = true) (hno : Piece.NoReference ps i j) {as bs : List Piece}
    {p : Piece} (hps : ps = as ++ p :: bs) (hlo : byteLength (Piece.values as) < j)
    (hhi : i < byteLength (Piece.values as) + byteLength p.value) : p.IsCopy := by
  have hbreak : p.value ≠ ['\n'] := by
    intro hvalue
    have hfrom : From f.code (byteLength (Piece.values as)) ('\n' :: Piece.values bs) :=
      ⟨Piece.values as, by rw [h.code, hps, Piece.values_append, Piece.values_cons, hvalue]; rfl, rfl⟩
    rw [hvalue] at hhi
    have hmem := hin.mem hfrom (Nat.le_of_lt_succ hhi) hlo
    exact absurd (hword _ hmem) (by decide)
  rcases h.pieces p (by simp [hps]) with hvalid | hcopy
  · cases hvalid with
    | char => exact ⟨_, rfl⟩
    | lineBreak | lineBreakPair => exact absurd rfl hbreak
    | reference href => exact absurd href (hno as _ bs hps hlo hhi)
  · exact hcopy

/-- A word in which there is no character reference stands in the template at its span. -/
theorem CutInto.slice (h : f.CutInto cs l lo ps) (hfit : byteLength cs < Offset.limit)
    (hin : Between f.code i raw j) (hword : ∀ c ∈ raw, isWordChar c = true) (hlt : i < j)
    (hno : Piece.NoReference ps i j) :
    ∃ a b, f.map.span i j = ⟨l.host a, l.host b⟩ ∧ Between cs a raw b := by
  have hcopy : ∀ as p bs, ps = as ++ p :: bs → byteLength (Piece.values as) < j →
      i < byteLength (Piece.values as) + byteLength p.value → p.IsCopy :=
    fun as p bs => h.isCopy hin hword hno
  obtain ⟨rfl, post, front, hcode, rfl⟩ := hin
  cases raw with
  | nil => simp at hlt
  | cons c raw =>
    have hvalues : Piece.values ps = front ++ c :: (raw ++ post) := h.code.symm.trans hcode
    obtain ⟨as, bs, rfl, rfl, hbs⟩ := Piece.values_split hvalues fun as p bs hps hle hhi =>
      hcopy as p bs hps (by omega) hhi
    replace hbs : Piece.values bs = (c :: raw) ++ post := hbs
    obtain ⟨bs', rfl⟩ := Piece.copies_of_values hbs fun as' p cs hps hlt' => by
      refine hcopy (as ++ as') p cs (by rw [hps, List.append_assoc]) ?_ ?_
      all_goals rw [Piece.values_append, Text.byteLength_append]
      · omega
      · have hvalue : 0 < byteLength p.value := by
          rcases h.pieces p (by simp [hps]) with hvalid | ⟨d, rfl⟩
          · exact hvalid.value_pos
          · exact Nat.add_pos_left (Text.utf8Size_pos _) _
        omega
    have hstart := h.borders hfit as _ rfl
    have hstop := h.borders hfit (as ++ Piece.copies (c :: raw)) bs' (List.append_assoc ..).symm
    rw [Piece.values_append, Piece.raws_append, Piece.values_copies, Piece.raws_copies,
      Text.byteLength_append, Text.byteLength_append] at hstop
    refine ⟨lo + byteLength (Piece.raws as), lo + byteLength (Piece.raws as) + byteLength (c :: raw),
      ?_, ?_⟩
    · rw [OffsetMap.span, hstart, hstop, Nat.add_assoc]
    · obtain ⟨hi, -, tail, hfrom⟩ := h.raw
      rw [Piece.raws_append, Piece.raws_append, Piece.raws_copies, List.append_assoc,
        List.append_assoc] at hfrom
      exact hfrom.append.between

end Fragment

namespace Template

variable {text : String} {o : Options} {reader : Script.Reader} {id : Nat} {e : Element}
  {a : PlainAttribute}

/-! ## The texts of a template in pieces -/

theorem fragmentAt_cutInto {lo hi : Nat} {ps : List Piece}
    (h : Decodes text.toList
      (fun x => (locatorOf text o).host x ∈ (builderOf text o).lexer.sortedGaps) lo ps hi) :
    (fragmentAt text o reader (Piece.values ps) lo).CutInto text.toList (locatorOf text o) lo ps where
  pieces p hp := .inl (h.valid p hp)
  code := rfl
  raw := ⟨hi, h.between⟩
  borders hfit as bs hps := by
    subst hps
    rw [fragmentAt_map]
    have hle := h.between.le_size
    refine (Decodes.offset_eq (builderOf text o).lexer.sortedGaps_spec.1 h (by omega)).trans ?_
    exact Nat.add_assoc ..

/-- A text without gaps is cut into its characters. -/
theorem fragmentAt_cutInto_copies {lo : Nat} {code : List Char}
    (hin : Between text.toList lo code (lo + byteLength code))
    (hno : ∀ x, lo ≤ x → x ≤ lo + byteLength code →
      (locatorOf text o).host x ∉ (builderOf text o).lexer.sortedGaps) :
    (fragmentAt text o reader code lo).CutInto text.toList (locatorOf text o) lo (Piece.copies code) where
  pieces p hp := by
    obtain ⟨c, -, rfl⟩ := List.mem_map.1 hp
    exact .inr ⟨c, rfl⟩
  code := (Piece.values_copies code).symm
  raw := ⟨_, by rwa [Piece.raws_copies]⟩
  borders hfit as bs hps := by
    obtain ⟨front, back, rfl, rfl, -⟩ := List.map_eq_append_iff.1 hps
    change (fragmentAt text o reader _ lo).map.offset (byteLength (Piece.values (Piece.copies front))) =
      (locatorOf text o).host (lo + byteLength (Piece.raws (Piece.copies front)))
    rw [Piece.values_copies, Piece.raws_copies, fragmentAt_map]
    have hle := hin.le_size
    rw [Text.byteLength_append] at hle hno
    refine (OffsetMap.offset_of_noGap (builderOf text o).lexer.sortedGaps_spec.1 (fun x hx hlo hhi => ?_)
      (by omega)).trans (Nat.add_assoc ..)
    obtain ⟨z, rfl⟩ : ∃ z, x = (locatorOf text o).host z :=
      ⟨x - (locatorOf text o).origin.offset, by unfold Locator.host at *; omega⟩
    simp only [Locator.host] at hlo hhi
    exact hno z (by omega) (by omega) hx

/-- Each text that is embedded in a template is cut into pieces of it. -/
theorem embeddedText_cutInto {x : EmbeddedText} (hx : x ∈ embeddedTexts text o reader) :
    ∃ lo ps, x.fragment.CutInto text.toList (locatorOf text o) lo ps := by
  rcases List.mem_append.1 hx with hx | hx
  · obtain ⟨⟨id, i⟩, hd, hx⟩ := List.mem_flatMap.1 hx
    obtain ⟨a, ha⟩ := exists_plain (Array.mem_toList_iff.1 hd)
    obtain ⟨e, he, hmem⟩ := Option.bind_eq_some_iff.1 ha
    replace hmem := Array.mem_of_getElem? hmem
    rw [Reading.textsIn_eq _ ha] at hx
    rcases List.mem_append.1 hx with hx | hx
    · simp only [Option.mem_toList, Option.map_eq_some_iff] at hx
      obtain ⟨p, hp, rfl⟩ := hx
      have hpiece : (KeyParts.ofName a.key.rawName.toList).tail.argument = some (.dynamic p) := by
        unfold Reading.dynamicPiece? at hp
        split at hp
        · next q hq => rw [hq, Option.some.inj hp]
        · exact nomatch hp
      obtain ⟨i, code, htext, hstart, -, -, hin, -, hno⟩ := exists_argument he hmem hpiece
      have hcode : (p.text.drop 1).dropLast = code := by simp [htext]
      have hfragment : ((readingOf text o reader).argumentText id i a p).fragment =
          fragmentAt text o reader code (i + 1) := by
        rw [Reading.argumentText, hcode, hstart]
        rfl
      exact ⟨i + 1, Piece.copies code, hfragment ▸ fragmentAt_cutInto_copies hin hno⟩
    · simp only [Option.mem_toList, Option.map_eq_some_iff] at hx
      obtain ⟨v, hv, rfl⟩ := hx
      obtain ⟨t, lo, hi, ps, ht, hcontent, hps, hvalue⟩ := literal_decodes he hmem hv
      have hstart := LiteralContent.quoted_start (r := readingOf text o reader) hcontent
      rw [ht] at hstart
      have hfragment : ((readingOf text o reader).valueText id i a v).fragment =
          fragmentAt text o reader (Piece.values ps) lo := by
        rw [hvalue]
        exact congrArg ((readingOf text o reader).fragment _) hstart
      exact ⟨lo, ps, hfragment ▸ fragmentAt_cutInto hps⟩
  · obtain ⟨m, hm, rfl⟩ := List.mem_map.1 hx
    obtain ⟨lo, hi, ps, hcontent, hps, hvalue⟩ := mustache_decodes (Array.mem_toList_iff.1 hm)
    have hfragment : ((readingOf text o reader).mustacheText m).fragment =
        fragmentAt text o reader (Piece.values ps) lo := by
      rw [hvalue]
      exact congrArg ((readingOf text o reader).fragment _) hcontent.start
    exact ⟨lo, ps, hfragment ▸ fragmentAt_cutInto hps⟩

end Template

/-! ## References and variables -/

/-- The span is that of a word of the text, and the word spells the name.  When there is no character
reference and no escape in it, the word is the name and stands in the template at the span. -/
def Fragment.Points (f : Fragment) (cs : List Char) (l : Locator) (name : String) (s : Span) : Prop :=
  ∃ lo ps, f.CutInto cs l lo ps ∧ ∃ i j raw, i < j ∧ s = f.map.span i j ∧ Between f.code i raw j ∧
    Spelled raw name.toList ∧
    (byteLength cs < Offset.limit → '\\' ∉ raw → Piece.NoReference ps i j →
      ∃ a b, s = ⟨l.host a, l.host b⟩ ∧ Between cs a name.toList b)

theorem Fragment.Names.points {f : Fragment} {cs : List Char} {l : Locator} {lo : Nat} {ps : List Piece}
    {name : String} {s : Span} (h : f.Names name s) (hcut : f.CutInto cs l lo ps) :
    f.Points cs l name s := by
  obtain ⟨i, j, raw, hlt, rfl, hin, hspelled⟩ := h
  refine ⟨lo, ps, hcut, i, j, raw, hlt, rfl, hin, hspelled, fun hfit hplain hno => ?_⟩
  obtain ⟨a, b, hspan, hslice⟩ := hcut.slice hfit hin hspelled.isWordChar hlt hno
  exact ⟨a, b, hspan, hspelled.eq_of_plain hplain ▸ hslice⟩

/-- Each container of a node has a place. -/
theorem Tree.exists_place {t : Tree} {id : Nat} {n : Node} {scope : Option Nat} {c : Container}
    (hn : t.node? id = some n) (hc : n.Holds id scope c) : ∃ place, t.containerAt? place = some c := by
  have hattribute : ∀ {e : Element} {d : Directive}, n.content = .element e →
      .directive d ∈ e.attributes → ∃ i, t.attribute? id i = some (.directive d) := by
    intro e d he hd
    obtain ⟨i, hi⟩ := Array.mem_iff_getElem?.1 hd
    exact ⟨i, Option.bind_eq_some_iff.2 ⟨e, Tree.element?_eq_some.2 ⟨n, hn, he⟩, hi⟩⟩
  cases hc with
  | mustache hm => exact ⟨.mustache id, containerAt?_mustache.2 ⟨n, hn, hm⟩⟩
  | @argument _ d _ he hd hc =>
    obtain ⟨i, hi⟩ := hattribute he hd
    refine ⟨.argument id i, containerAt?_argument.2 ⟨_, hi, ?_⟩⟩
    obtain ⟨⟨name, argument, modifiers, extent⟩, value, whole⟩ := d
    obtain rfl : argument = _ := hc
    rfl
  | value he hd hc _ | declaring he hd hc _ =>
    obtain ⟨i, hi⟩ := hattribute he hd
    exact ⟨.value id i, containerAt?_value.2 ⟨_, hi, hc⟩⟩

namespace Template

variable {text : String} {o : Options} {reader : Script.Reader}

theorem embeddedText_reader {x : EmbeddedText}
    (hx : x ∈ embeddedTexts text o reader) : x.fragment.reader = reader := by
  rcases List.mem_append.1 hx with hx | hx
  · obtain ⟨⟨id, i⟩, hd, hx⟩ := List.mem_flatMap.1 hx
    obtain ⟨a, ha⟩ := exists_plain (Array.mem_toList_iff.1 hd)
    rw [Reading.textsIn_eq _ ha] at hx
    rcases List.mem_append.1 hx with hx | hx
    all_goals
      simp only [Option.mem_toList, Option.map_eq_some_iff] at hx
      obtain ⟨p, -, rfl⟩ := hx
      rfl
  · obtain ⟨m, -, rfl⟩ := List.mem_map.1 hx
    rfl

/-- What was read of a text is made of names of it. -/
theorem outcome_names (hreader : reader.Faithful) {x : EmbeddedText}
    (hx : x ∈ embeddedTexts text o reader) {e : Embedded} (he : x.outcome = .ok e) :
    x.fragment.NamesAll e :=
  Fragment.read_names ((embeddedText_reader hx).symm ▸ hreader) he

/-- The references in the container of a text are names of it. -/
theorem references_names (hreader : reader.Faithful) {x : EmbeddedText}
    (hx : x ∈ embeddedTexts text o reader) {c : Container} (hc : Shows x c) :
    ∀ r ∈ c.references, x.fragment.Names r.name r.span := by
  obtain ⟨t, scope, extent, rfl⟩ := hc
  intro r hr
  obtain ⟨r₀, hr₀, rfl⟩ := Array.mem_map.1 hr
  unfold Reading.containerOf at hr₀
  cases hx' : x.outcome with
  | ok e =>
    rw [hx'] at hr₀
    exact (outcome_names hreader hx hx').references r₀ (Array.mem_toList_iff.2 hr₀)
  | error f =>
    rw [hx'] at hr₀
    exact absurd hr₀ (Array.not_mem_empty r₀)

/-- The variables of an element are names of the texts of its values. -/
theorem bindings_names (hreader : reader.Faithful) {id : Nat} {e : Element}
    (he : (parse text o reader).tree.element? id = some e) {v : Variable} (hv : v ∈ e.bindings) :
    ∃ x ∈ embeddedTexts text o reader,
      x.place.isValueIn id = true ∧ x.fragment.Names v.name v.span := by
  obtain ⟨x, hx, hplace, w, hdeclared, heq⟩ := exists_declared he hv
  have hname : w.declaration.name = v.declaration.name := congrArg Variable.name heq
  have hspan : w.declaration.span = v.declaration.span := congrArg Variable.span heq
  refine ⟨x, hx, hplace, ?_⟩
  rw [← show w.name = v.name from hname, ← show w.span = v.span from hspan]
  unfold EmbeddedText.declared at hdeclared
  cases hx' : x.outcome with
  | ok e =>
    rw [hx'] at hdeclared
    exact (outcome_names hreader hx hx').bindings w hdeclared
  | error f =>
    rw [hx'] at hdeclared
    exact absurd hdeclared List.not_mem_nil

/-- The references and the variables of a template are where their names are. -/
structure NamesPlaced (text : String) (o : Options) (reader : Script.Reader) : Prop where
  /-- The references of a container are names of the text that it was made for. -/
  containers : ∀ place c, (parse text o reader).tree.containerAt? place = some c →
    ∃ x ∈ embeddedTexts text o reader, x.place = place ∧
      ∀ r ∈ c.references, x.fragment.Points text.toList (locatorOf text o) r.name r.span
  /-- Each reference is one of a container. -/
  references : ∀ r ∈ (parse text o reader).tree.references, ∃ place c,
    (parse text o reader).tree.containerAt? place = some c ∧ r ∈ c.references
  /-- The variables of an element are names of the texts of its values. -/
  declared : ∀ id e, (parse text o reader).tree.element? id = some e → ∀ v ∈ e.bindings,
    ∃ x ∈ embeddedTexts text o reader, x.place.isValueIn id = true ∧
      x.fragment.Points text.toList (locatorOf text o) v.name v.span
  /-- The identifiers that mean a variable are references by its name. -/
  uses : ∀ v x, (parse text o reader).tree.variableAt? v = some x → ∀ id ∈ x.uses,
    id.name = x.name ∧ ∃ r ∈ (parse text o reader).tree.references, r.ident = id

/-- The spans of references and variables point at names, whatever faithful reader is at work: each is that
of a word of the text that was read, and the word spells the name.  The word stands in the template at the
span, when there is no character reference and no escape in it. -/
theorem parse_namesPlaced (text : String) (o : Options) (hreader : reader.Faithful) :
    NamesPlaced text o reader := by
  have hbound := @parse_referencesBound text o reader
  refine ⟨fun place c hc => ?_, fun r hr => ?_, fun id e he v hv => ?_, fun v x hx y hy => ?_⟩
  · obtain ⟨x, hx, rfl⟩ := exists_embeddedText hc
    obtain ⟨c', hc', hshows⟩ := parse_containerAt? hx
    obtain rfl := Option.some.inj (hc.symm.trans hc')
    obtain ⟨lo, ps, hcut⟩ := embeddedText_cutInto hx
    exact ⟨x, hx, rfl, fun r hr => (references_names hreader hx hshows r hr).points hcut⟩
  · obtain ⟨id, n, scope, c, hn, hc, hmem⟩ := (hbound.containers r).1 hr
    obtain ⟨place, hplace⟩ := Tree.exists_place hn hc
    exact ⟨place, c, hplace, hmem⟩
  · obtain ⟨x, hx, hplace, hnames⟩ := bindings_names hreader he hv
    obtain ⟨lo, ps, hcut⟩ := embeddedText_cutInto hx
    exact ⟨x, hx, hplace, hnames.points hcut⟩
  · rw [← Array.mem_toList_iff, hbound.uses v x hx] at hy
    obtain ⟨r, hr, rfl⟩ := List.mem_map.1 hy
    obtain ⟨hr, htarget⟩ := List.mem_filter.1 hr
    obtain ⟨id, n, scope, c, hn, hc, hmem⟩ := (hbound.containers r).1 hr
    obtain ⟨chain, -, hnearest⟩ := hbound.nearest id n scope c hn hc
    obtain ⟨z, hz, hname⟩ := (((hnearest r hmem).1 v).1 (of_decide_eq_true htarget)).declares
    obtain rfl := Option.some.inj (hx.symm.trans hz)
    exact ⟨hname.symm, r, hr, rfl⟩

/-- A template in which a variable is declared behind a character reference, and used. -/
theorem parse_namesPlaced_behindReference : Script.Reader.Faithful Script.parse ∧
    NamesPlaced "<li v-for=\"&amp;x of xs\">\x7b\x7b x \x7d\x7d</li>" {} Script.parse :=
  ⟨Script.parse_faithful, parse_namesPlaced _ _ Script.parse_faithful⟩

end Template

end TemplateSyntax
