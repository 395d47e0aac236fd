import Mathlib.Data.List.Induction
import TemplateSyntax.Proofs.OffsetMap
import TemplateSyntax.Proofs.ParseStages

/-! # Exact places of embedded code

The text of a value of an attribute and of a mustache decodes a range of the template, piece by
piece.  The map of the template, moved to the start of the range, answers at each border between two
pieces where the raw text goes on there. -/

namespace TemplateSyntax

open Text (byteLength Between From)

variable {cs : List Char} {l : Locator} {gap : Nat → Prop} {ts : List Token} {m m' : Mode}
  {p p' : Nat}

namespace Stream

/-- Each token of a stream comes next somewhere. -/
theorem exists_lexed (h : Stream cs l gap ts m p) {tok : Token} (htok : tok ∈ ts) :
    ∃ m₀ p₀ t j m₁, tok = l.token t j ∧ Lexed cs gap m₀ p₀ t j m₁ := by
  induction h with
  | nil => simp at htok
  | @snoc ts m m' p j t h ht ih =>
    rcases List.mem_append.1 htok with htok | htok
    · exact ih htok
    · exact ⟨m, p, t, j, m', List.mem_singleton.1 htok, ht⟩

/-- Double braces open an interpolation. -/
theorem opening_spec {o : Token} (h : Stream cs l gap (ts ++ [o]) m p)
    (ho : o.kind = .interpolationStart) :
    m = .interpolation ∧ o.extent.span.stop = l.host p ∧
      ∃ i, o.extent.span.start = l.host i ∧ Between cs i ['{', '{'] p := by
  obtain ⟨m₀, p₀, t, -, ht, rfl⟩ := h.snoc_inv
  have hafter := ht.after
  rw [show t.kind = .interpolationStart from ho] at hafter
  have hm : m = .interpolation := by
    cases m₀ <;> simp only [Mode.after, reduceCtorEq, Option.some.injEq] at hafter
    exact hafter.symm
  exact ⟨hm, rfl, t.start, rfl, ht.opening ho⟩

/-- Text behind double braces decodes the text of the template from there on. -/
theorem inside_decoded {inside : List Token} {o : Token} {lo : Nat}
    (h : Stream cs l gap (ts ++ o :: inside) m p) (ho : o.kind = .interpolationStart)
    (hlo : o.extent.span.stop = l.host lo)
    (hk : ∀ t ∈ inside, t.kind = .text ∨ t.kind = .whitespace) :
    m = .interpolation ∧ (inside = [] → p = lo) ∧
      (inside ≠ [] → Decoded cs gap lo (Assembler.joinValues inside.toArray) p) := by
  induction inside using List.reverseRecOn generalizing m p with
  | nil =>
    obtain ⟨hm, hstop, -⟩ := opening_spec h ho
    exact ⟨hm, fun _ => Nat.add_left_cancel (hstop.symm.trans hlo), fun hne => absurd rfl hne⟩
  | append_singleton inside tok ih =>
    rw [← List.cons_append, ← List.append_assoc] at h
    obtain ⟨m₀, p₀, t, h₀, ht, rfl⟩ := h.snoc_inv
    obtain ⟨rfl, hnil, hcons⟩ := ih h₀ fun t ht => hk t (List.mem_append_left _ ht)
    have hm : m = .interpolation := by
      have hafter := ht.after
      rcases hk (l.token t p) (by simp) with hk | hk
      all_goals
        rw [show t.kind = _ from hk] at hafter
        exact (Option.some.inj hafter).symm
    have hinner := ht.inner rfl hm
    have hjoin : Assembler.joinValues (inside ++ [l.token t p]).toArray =
        Assembler.joinValues inside.toArray ++ t.value := by
      simp [Assembler.joinValues, Locator.token]
    rw [ht.adjacent rfl] at hinner
    refine ⟨hm, by simp, fun _ => ?_⟩
    rw [hjoin]
    by_cases hne : inside = []
    · subst hne
      rw [hnil rfl] at hinner
      simpa [Assembler.joinValues] using hinner
    · exact (hcons hne).append hinner

end Stream

/-! ## Where the text of a token or mustache stands -/

/-- The raw content of the value of an attribute stands from `lo` to `hi`: between its quotes, up to
the end of the template where the second quote is missing, or all of a value without quotes. -/
inductive LiteralContent (cs : List Char) (l : Locator) (t : Token) : Nat → Nat → Prop
  | quoted {i hi : Nat} {q : Char} {mid : List Char} (hq : isQuote q = true)
      (hspan : t.extent.span = ⟨l.host i, l.host (hi + 1)⟩) (hopen : Between cs i [q] (i + 1))
      (hmid : Between cs (i + 1) mid hi) (hin : q ∉ mid) (hclose : Between cs hi [q] (hi + 1)) :
      LiteralContent cs l t (i + 1) hi
  | unclosed {i : Nat} {q : Char} {mid : List Char} (hq : isQuote q = true)
      (hspan : t.extent.span = ⟨l.host i, l.host (byteLength cs)⟩)
      (hopen : Between cs i [q] (i + 1)) (hmid : Between cs (i + 1) mid (byteLength cs))
      (hin : q ∉ mid) : LiteralContent cs l t (i + 1) (byteLength cs)
  | bare {lo hi : Nat} {c : Char} {tail : List Char}
      (hspan : t.extent.span = ⟨l.host lo, l.host hi⟩) (hfirst : From cs lo (c :: tail))
      (hq : isQuote c = false) : LiteralContent cs l t lo hi

/-- The text between the braces of a mustache stands from `lo` to `hi`. -/
structure MustacheContent (cs : List Char) (l : Locator) (m : PendingMustache) (lo hi : Nat) :
    Prop where
  start : m.start = l.host lo
  opening : ∃ i, Between cs i ['{', '{'] lo
  closing : ∃ j, Between cs hi ['}', '}'] j

/-- The text from `lo` to `hi` and `value` are cut into pieces of which each is a character, a line
break or a character reference with what the value has for it, and the map moved to `lo` answers at
each border between two pieces where the raw text goes on. -/
def MapsPieces (cs : List Char) (l : Locator) (map : OffsetMap) (lo : Nat) (value : String)
    (hi : Nat) : Prop :=
  ∃ ps : List Piece, (∀ p ∈ ps, p.Valid) ∧ Between cs lo (Piece.raws ps) hi ∧
    Piece.values ps = value.toList ∧ ∀ k ≤ ps.length,
      (map.after (l.host lo)).offset (byteLength (Piece.values (ps.take k))) =
        l.host lo + byteLength (Piece.raws (ps.take k))

/-- A decoded range is mapped exactly. -/
theorem Decodes.mapsPieces {l : Locator} {gaps : Array Nat} {map : OffsetMap} {lo hi : Nat}
    {ps : List Piece} {value : String} (hg : gaps.toList.Pairwise (· < ·))
    (hmap : map.gaps = gaps) (h : Decodes cs (fun x => l.host x ∈ gaps) lo ps hi)
    (hfit : hi < Offset.limit) (hv : Piece.values ps = value.toList) :
    MapsPieces cs l map lo value hi := by
  refine ⟨ps, h.valid, h.between, hv, fun k _ => ?_⟩
  rw [← List.take_append_drop k ps] at h
  subst hmap
  exact Decodes.offset_eq hg h hfit

/-- The value of an attribute decodes its raw content. -/
theorem Lexed.literal_decodes {t : PendingToken} {j : Nat} (h : Lexed cs gap m p t j m')
    (hk : t.kind = .literal) :
    ∃ lo hi ps, LiteralContent cs l (l.token t j) lo hi ∧ Decodes cs gap lo ps hi ∧
      Piece.values ps = t.value.toList := by
  obtain ⟨q, f, ⟨hopens, ps, hps, hv, hin⟩, hcloses⟩ := h.literal hk
  cases q with
  | none =>
    obtain ⟨c, tail, hfirst, hq⟩ := hopens
    obtain rfl : j = f := hcloses
    exact ⟨t.start, j, ps, .bare rfl hfirst hq, hps, hv⟩
  | some q =>
    obtain ⟨hq, tail, hopen⟩ := hopens
    have hsize : q.utf8Size = 1 := by
      simp only [isQuote, Bool.or_eq_true, beq_iff_eq] at hq
      rcases hq with rfl | rfl <;> rfl
    have hopen' : Between cs t.start [q] (t.start + 1) := hsize ▸ hopen.between_cons
    rcases hcloses with hclose | ⟨rfl, rfl⟩
    · obtain rfl : j = f + 1 := by
        rw [hclose.1, Text.byteLength_cons, hsize, Text.byteLength_nil]
      exact ⟨t.start + 1, f, ps, .quoted hq rfl hopen' hps.between (hin q rfl) hclose, hps, hv⟩
    · exact ⟨t.start + 1, _, ps, .unclosed hq rfl hopen' hps.between (hin q rfl), hps, hv⟩

/-- The text of a mustache decodes what stands between its braces. -/
theorem Mustache.ReadFrom.decoded {y : Mustache} (hy : y.ReadFrom ts)
    (h : Stream cs l gap ts m p) :
    ∃ lo hi i j, y.opening.extent.span.stop = l.host lo ∧ Between cs i ['{', '{'] lo ∧
      Between cs hi ['}', '}'] j ∧ Decoded cs gap lo y.value hi := by
  obtain ⟨pre, inside, post, rfl, hne, hk, hv⟩ := hy.tokens
  have hsplit : pre ++ y.opening :: (inside ++ y.closing :: post) =
      (pre ++ [y.opening]) ++ (inside ++ y.closing :: post) := by simp
  have hsplit' : pre ++ y.opening :: (inside ++ y.closing :: post) =
      ((pre ++ y.opening :: inside) ++ [y.closing]) ++ post := by simp
  obtain ⟨m₁, lo, hopen⟩ := (hsplit ▸ h).front
  obtain ⟨m₂, p₂, hclose⟩ := (hsplit' ▸ h).front
  obtain ⟨-, hlo, i, -, hbraces⟩ := Stream.opening_spec hopen hy.opening
  obtain ⟨m₃, hi, t, hinside, ht, hclosing⟩ := hclose.snoc_inv
  obtain ⟨rfl, -, hdecoded⟩ := Stream.inside_decoded hinside hy.opening hlo hk
  refine ⟨lo, hi, i, p₂, hlo, hbraces, ?_, ?_⟩
  · rw [← ht.adjacent rfl]
    exact ht.closing ((congrArg Token.kind hclosing).symm.trans hy.closing)
  · rw [hv]
    exact hdecoded hne

namespace Template

/-- The places of embedded code are exact: for each value of an attribute and each mustache the map
of the template, moved to the start of its text, answers at each border between two pieces of the
text where the raw text goes on. -/
theorem embedded_locations_exact (text : String) (o : Options) (reader : Script.Reader)
    (hfit : o.origin.offset + byteLength text.toList < Offset.limit) :
    (∀ t ∈ (parse text o reader).tokens, t.kind = .literal →
      ∃ lo hi, LiteralContent text.toList (locatorOf text o) t lo hi ∧
        MapsPieces text.toList (locatorOf text o) (readingOf text o reader).map lo t.value hi) ∧
    ∀ m ∈ (outlineOf text o).mustaches,
      ∃ lo hi, MustacheContent text.toList (locatorOf text o) m lo hi ∧
        MapsPieces text.toList (locatorOf text o) (readingOf text o reader).map lo m.value hi := by
  obtain ⟨taken, hwhole⟩ := builderOf_whole text o
  obtain ⟨floor, houtputs⟩ := hwhole.assembler
  obtain ⟨m₀, p₀, hstream⟩ := hwhole.tracks.stream
  rw [hwhole.locator] at hstream
  obtain ⟨hsorted, hmem⟩ := (builderOf text o).lexer.sortedGaps_spec
  have hgap : ∀ x, (builderOf text o).lexer.HasGap x ↔
      (locatorOf text o).host x ∈ (builderOf text o).lexer.sortedGaps := by
    intro x
    rw [hmem, Lexer.HasGap, hwhole.locator]
  have hmaps : ∀ {lo hi : Nat} {ps : List Piece} {value : String},
      Decodes text.toList (builderOf text o).lexer.HasGap lo ps hi →
      Piece.values ps = value.toList →
      MapsPieces text.toList (locatorOf text o) (readingOf text o reader).map lo value hi := by
    intro lo hi ps value hps hv
    have hle := hps.between.le_size
    exact (hps.mono fun x _ => (hgap x).symm).mapsPieces hsorted
      (readingOf_gaps text o reader) (by omega) hv
  refine ⟨fun t ht hk => ?_, fun m hm => ?_⟩
  · have htaken : t ∈ taken := houtputs.tokens t (by simpa only [parse_eq, outlineOf_eq] using ht)
    obtain ⟨m₁, p₁, pt, j, m₂, rfl, hlexed⟩ := hstream.exists_lexed htaken
    obtain ⟨lo, hi, ps, hcontent, hps, hv⟩ := hlexed.literal_decodes hk
    exact ⟨lo, hi, hcontent, hmaps hps hv⟩
  · rw [outlineOf_mustaches] at hm
    obtain ⟨-, y, hy, hvalue, hstart⟩ := hwhole.mustaches m hm
    obtain ⟨lo, hi, i, j, hlo, hopen, hclose, ps, hps, hv⟩ := hy.decoded hstream
    rw [hvalue]
    exact ⟨lo, hi, ⟨hstart.trans hlo, ⟨i, hopen⟩, ⟨j, hclose⟩⟩, hmaps hps hv⟩

/-- The theorem at a template with an attribute and a mustache. -/
theorem embedded_locations_exact_of_binding :
    let text := "<a :b=\"x&lt;1\r\n\">\x7b\x7b c \x7d\x7d</a>"
    let o : Options := {}
    o.origin.offset + byteLength text.toList < Offset.limit ∧
      (∀ t ∈ (parse text o).tokens, t.kind = .literal →
        ∃ lo hi, LiteralContent text.toList (locatorOf text o) t lo hi ∧
          MapsPieces text.toList (locatorOf text o) (readingOf text o).map lo t.value hi) ∧
      ∀ m ∈ (outlineOf text o).mustaches,
        ∃ lo hi, MustacheContent text.toList (locatorOf text o) m lo hi ∧
          MapsPieces text.toList (locatorOf text o) (readingOf text o).map lo m.value hi :=
  have hfit : ({} : Options).origin.offset +
      byteLength "<a :b=\"x&lt;1\r\n\">\x7b\x7b c \x7d\x7d</a>".toList < Offset.limit := by decide
  ⟨hfit, embedded_locations_exact _ _ _ hfit⟩

end Template

end TemplateSyntax
