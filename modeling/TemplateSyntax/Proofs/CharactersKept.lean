import TemplateSyntax.Proofs.CharacterData

/-! # No character data is lost

The units that the tree builder takes, one after the other, share out the tokens of a template: the
texts and mustaches among them have the characters of all tokens outside tags, in order, and no text is
split that could be one. -/

namespace TemplateSyntax

variable {ts ts' g : List Token} {us : List MarkupUnit} {u : MarkupUnit} {tok o c : Token}

/-! ## Rows of tokens -/

/-- A unit has the characters of its tokens. -/
theorem MarkupUnit.MadeOf.characters (h : u.MadeOf g) (hb : ∀ t ∈ g, t.Braced) :
    Token.joined (Token.outsideTags false g) = u.characters := by
  have htag : ∀ {k : TokenKind}, k.inContent = false → k.tagBehind false = true →
      Token.OfTag k g → Token.joined (Token.outsideTags false g) = "" := by
    rintro k hk hbehind ⟨o, parts, rfl, rfl, -, hparts⟩
    rw [Token.outsideTags, hk, hbehind, hparts]
    rfl
  cases u with
  | startTag t => exact htag rfl rfl h.tokens
  | endTag t => exact htag rfl rfl h.tokens
  | text r =>
    have hr : r.OfTokens g := h.tokens
    rw [Token.outsideTags_of_inContent hr.inContent]
    exact hr.value.symm
  | mustache m =>
    have hm : m.OfTokens g := h.tokens
    obtain ⟨inside, rfl, -, hkinds, hvalue⟩ := hm.tokens
    have hopening : m.opening.value = "\x7b\x7b" :=
      hb _ (List.mem_cons_self ..) _ (by rw [hm.opening]; rfl)
    have hclosing : m.closing.value = "\x7d\x7d" :=
      hb _ (List.mem_cons_of_mem _ List.mem_concat_self) _ (by rw [hm.closing]; rfl)
    have hinside : ∀ t ∈ m.opening :: (inside ++ [m.closing]), t.kind.inContent = true := by
      intro t ht
      rcases List.mem_cons.1 ht with rfl | ht
      · simp [TokenKind.inContent, hm.opening]
      · rcases List.mem_append.1 ht with ht | ht
        · simp [TokenKind.inContent, hkinds t ht]
        · simp [TokenKind.inContent, List.mem_singleton.1 ht, hm.closing]
    rw [Token.outsideTags_of_inContent hinside, Token.joined_cons, Token.joined_append,
      Token.joined_singleton, hopening, hclosing, ← hvalue, ← String.append_assoc]
    rfl

/-- Units that share out tokens have their characters. -/
theorem Grouped.characters (h : Grouped ts us) (hb : ∀ t ∈ ts, t.Braced) :
    String.join (us.map MarkupUnit.characters) = Token.joined (Token.outsideTags false ts) := by
  induction h with
  | nil => rfl
  | @snoc ts g us u h hout hu ih =>
    obtain ⟨hts, hg⟩ := List.forall_mem_append.1 hb
    rw [List.map_append, String.join_append, ih hts, Token.outsideTags_append, hout,
      Token.joined_append, hu.characters hg]
    simp

/-- Neighbours in two lists together are so in one of them, or the second one starts between them. -/
theorem pair_infix_append (h : [o, c] <:+: ts ++ ts') :
    [o, c] <:+: ts ∨ [o, c] <:+: ts' ∨ ts'.head? = some c := by
  obtain ⟨s, t, heq⟩ := h
  rw [List.append_assoc] at heq
  rcases List.append_eq_append_iff.1 heq with ⟨as, rfl, htail⟩ | ⟨bs, rfl, rfl⟩
  · match as, htail with
    | [], htail => exact .inr (.inl ⟨[], t, htail⟩)
    | [x], htail =>
      obtain ⟨-, rfl⟩ := List.cons.inj htail
      exact .inr (.inr rfl)
    | x :: y :: as, htail =>
      simp only [List.cons_append, List.cons.injEq] at htail
      obtain ⟨rfl, rfl, -⟩ := htail
      exact .inl ⟨s, as, by simp⟩
  · exact .inr (.inl ⟨bs, t, List.append_assoc ..⟩)

/-- Braces with nothing in between are in a row of text. -/
theorem MarkupUnit.MadeOf.text_of_pair (h : u.MadeOf g) (hpair : [o, c] <:+: g)
    (ho : o.kind = .interpolationStart) (hc : c.kind = .interpolationEnd) : ∃ r, u = .text r := by
  have hmem : c ∈ g := hpair.subset (by simp)
  have htag : ∀ {k : TokenKind}, k ≠ .interpolationEnd → ¬ Token.OfTag k g := by
    rintro k hk ⟨o', parts, rfl, rfl, hparts, -⟩
    rcases List.mem_cons.1 hmem with rfl | hmem
    · exact hk hc
    · have hpart := hparts c hmem
      simp [hc, Mode.after] at hpart
  cases u with
  | startTag t => exact absurd h.tokens (htag (by decide))
  | endTag t => exact absurd h.tokens (htag (by decide))
  | text r => exact ⟨r, rfl⟩
  | mustache m =>
    have hm : m.OfTokens g := h.tokens
    obtain ⟨inside, rfl, hne, hkinds, -⟩ := hm.tokens
    obtain ⟨x, inside, rfl⟩ := List.exists_cons_of_ne_nil hne
    rcases List.infix_cons_iff.1 hpair with hfront | hbehind
    · -- the text in between would have to be the braces that close
      obtain ⟨-, hfront⟩ := List.cons_prefix_cons.1 hfront
      obtain ⟨rfl, -⟩ := List.cons_prefix_cons.1 hfront
      have htext := hkinds c (List.mem_cons_self ..)
      simp [hc, TokenKind.isText] at htext
    · rcases List.mem_append.1 (hbehind.subset (List.mem_cons_self ..)) with hmem | hmem
      · have htext := hkinds o hmem
        simp [ho, TokenKind.isText] at htext
      · rw [List.mem_singleton.1 hmem, hm.closing] at ho
        cases ho

/-- A unit does not start with braces that close. -/
theorem MarkupUnit.MadeOf.head_ne (h : u.MadeOf g) (hc : g.head? = some c) :
    c.kind ≠ .interpolationEnd := by
  cases u with
  | startTag t | endTag t =>
    obtain ⟨o, parts, rfl, hk, -⟩ := h.tokens
    rw [← Option.some.inj hc, hk]
    decide
  | text r => exact TextRun.OfTokens.head h.tokens c hc
  | mustache m =>
    have hm : m.OfTokens g := h.tokens
    obtain ⟨inside, rfl, -⟩ := hm.tokens
    rw [← Option.some.inj hc, hm.opening]
    decide

theorem Grouped.text_of_pair (h : Grouped ts us) (hpair : [o, c] <:+: ts)
    (ho : o.kind = .interpolationStart) (hc : c.kind = .interpolationEnd) :
    ∃ g r, .text r ∈ us ∧ MarkupUnit.MadeOf g (.text r) ∧ [o, c] <:+: g := by
  induction h with
  | nil => simp at hpair
  | @snoc ts g us u h hout hu ih =>
    rcases pair_infix_append hpair with hpair | hpair | hhead
    · obtain ⟨g', r, hr, hg', hin⟩ := ih hpair
      exact ⟨g', r, List.mem_append_left _ hr, hg', hin⟩
    · obtain ⟨r, rfl⟩ := hu.text_of_pair hpair ho hc
      exact ⟨g, r, List.mem_concat_self, hu, hpair⟩
    · exact absurd hc (hu.head_ne hhead)

/-! ## Units that are taken -/

/-- The units that the builder takes on a run, in order. -/
def Builder.unitsTaken : Nat → Builder → List MarkupUnit
  | 0, _ => []
  | fuel + 1, b =>
    match b.lexer.pull with
    | (some t, x) => (b.assembler.process t).output.toList ++ unitsTaken fuel (b.take t x)
    | (none, _) => b.assembler.commit.output.toList

/-- The units of a template. -/
def Template.unitsOf (text : String) (o : Options) : List MarkupUnit :=
  (startOf text o).unitsTaken (Outline.tokenBound (startOf text o).lexer)

theorem Builder.drain_assembler (b : Builder) :
    b.drain.assembler = { b.assembler with output := #[] } := by
  simp only [drain, Assembler.takeOutput]
  refine Array.foldl_induction (fun _ (b' : Builder) =>
    b'.assembler = { b.assembler with output := #[] }) rfl fun i b' ih => ?_
  rw [onUnit_assembler]
  exact ih

/-- Between double braces, only text can come next that does not close them. -/
theorem Mode.after_interpolation {k : TokenKind} {m : Mode} (h : interpolation.after k = some m)
    (hk : k ≠ .interpolationEnd) : m = interpolation ∧ k.isText = true := by
  cases k <;> cases m <;> first | exact ⟨rfl, rfl⟩ | exact absurd rfl hk | exact absurd h (by decide)

/-- Behind braces that are not closed there is text only, up to the end. -/
theorem Stream.unclosed {cs : List Char} {l : Locator} {gap : Nat → Prop} {m : Mode} {p : Nat}
    (h : Stream cs l gap ts m p) (hts : ts = g ++ o :: ts') (ho : o.kind = .interpolationStart)
    (hopen : ∀ t ∈ ts', t.kind ≠ .interpolationEnd) :
    m = .interpolation ∧ ∀ t ∈ ts', t.kind.isText = true := by
  induction ts' using List.reverseRecOn generalizing ts m p with
  | nil =>
    subst hts
    obtain ⟨m₀, p₀, t, -, ht, rfl⟩ := h.snoc_inv
    have hafter := ht.after
    rw [show t.kind = .interpolationStart from ho] at hafter
    cases m₀ with
    | content => exact ⟨(Option.some.inj hafter).symm, List.forall_mem_nil _⟩
    | tag | interpolation => cases hafter
  | append_singleton ts' t ih =>
    obtain ⟨hfront, ht⟩ := List.forall_mem_append.1 hopen
    rw [← List.cons_append, ← List.append_assoc] at hts
    subst hts
    obtain ⟨m₀, p₀, t', h₀, hlexed, rfl⟩ := h.snoc_inv
    obtain ⟨rfl, htext⟩ := ih h₀ rfl hfront
    obtain ⟨hm, hkind⟩ := Mode.after_interpolation hlexed.after (ht _ (List.mem_singleton_self _))
    refine ⟨hm, fun t hmem => ?_⟩
    rcases List.mem_append.1 hmem with hmem | hmem
    · exact htext t hmem
    · exact List.mem_singleton.1 hmem ▸ hkind

namespace Builder

/-- What each token that is taken keeps holds in front of the end of the text, where everything else is
put out. -/
theorem exists_atEnd {cs : List Char} {l : Locator} {taken : List Token} {b : Builder}
    {P : List Token → List MarkupUnit → Builder → Prop}
    (htake : ∀ {taken us b t x}, P taken us b → b.lexer.pull = (some t, x) →
      x.Tracks cs (taken ++ [t]) → x.locator = l →
        P (taken ++ [t]) (us ++ (b.assembler.process t).output.toList) (b.take t x))
    {fuel : Nat} (hr : Runs cs l taken b) (h : P taken us b) (hfuel : b.lexer.tokensLeft < fuel) :
    ∃ taken' us' b', P taken' us' b' ∧
      us ++ b.unitsTaken fuel = us' ++ b'.assembler.commit.output.toList ∧
      (run fuel b).assembler = { b'.assembler.commit with output := #[] } := by
  induction fuel generalizing b taken us with
  | zero => omega
  | succ fuel ih =>
    cases hr.next with
    | @token t x hpull hx hloc hruns hlt hc =>
      rw [run_token hpull, unitsTaken, hpull, ← List.append_assoc]
      exact ih hruns (htake h hpull hx hloc) (by omega)
    | @ended x hpull hx hloc hended =>
      refine ⟨taken, us, b, h, ?_, ?_⟩
      · rw [unitsTaken, hpull]
      · rw [run_atEnd hpull, atEnd, drain_assembler]

/-- What is carried along a run: the units `us` were taken so far, and the tokens `taken`. -/
structure Carrying (cs : List Char) (l : Locator) (taken : List Token) (us : List MarkupUnit)
    (b : Builder) : Prop where
  records : b.assembler.Records taken
  buffer : b.lexer.buffer.Braced
  braced : ∀ t ∈ taken, t.Braced
  carries : ∃ gap m p, Stream cs l gap taken m p ∧
    Carries (taken.filter fun t => !t.kind.isComment) us b.assembler m (l.host p)

namespace Carrying

variable {cs : List Char} {l : Locator} {taken : List Token} {b : Builder}

/-- A token more is taken. -/
theorem take (h : Carrying cs l taken us b) {t : Token} {x : Lexer}
    (hpull : b.lexer.pull = (some t, x)) (hx : x.Tracks cs (taken ++ [t])) (hloc : x.locator = l) :
    Carrying cs l (taken ++ [t]) (us ++ (b.assembler.process t).output.toList) (b.take t x) := by
  obtain ⟨hbuffer, hbraced⟩ := (Takes.nothing.token hpull).braced h.buffer
  have hassembler : (b.take t x).assembler = { b.assembler.process t with output := #[] } := by
    rw [Builder.take, drain_assembler]
  obtain ⟨gap, m, p, hstream, hcarries⟩ := h.carries
  obtain ⟨m', p', hstream'⟩ := hx.stream
  rw [hloc] at hstream'
  obtain ⟨m₀, p₀, t', h₀, hlexed, rfl⟩ := hstream'.snoc_inv
  obtain ⟨rfl, rfl⟩ := hstream.unique h₀
  refine ⟨?_, hbuffer, List.forall_mem_append.2 ⟨h.braced, hbraced⟩,
    x.HasGap, m', p', hstream', ?_⟩
  · rw [hassembler]
    exact (h.records.process _).congr rfl
  · rw [hassembler, List.filter_append]
    exact (hcarries.process hlexed.after fun hm => congrArg l.host (hlexed.adjacent hm)).takeOutput

/-- A run stops in front of the end of the text, where everything else is put out. -/
theorem run {fuel : Nat} (hr : Runs cs l taken b) (h : Carrying cs l taken us b)
    (hfuel : b.lexer.tokensLeft < fuel) : ∃ taken' us' b', Carrying cs l taken' us' b' ∧
      us ++ b.unitsTaken fuel = us' ++ b'.assembler.commit.output.toList ∧
      (Builder.run fuel b).assembler.tokens = b'.assembler.tokens := by
  obtain ⟨taken', us', b', hb, hunits, hend⟩ :=
    exists_atEnd (fun h hpull hx hloc => h.take hpull hx hloc) hr h hfuel
  refine ⟨taken', us', b', hb, hunits, ?_⟩
  rw [hend]
  exact congrArg Prod.fst b'.assembler.record_commit

theorem start (text : String) (o : Options) :
    Carrying text.toList (Template.locatorOf text o) [] [] (Template.startOf text o) where
  records := ⟨rfl, rfl⟩
  buffer := ⟨nofun, nofun, nofun⟩
  braced := List.forall_mem_nil _
  carries := ⟨fun _ => False, .content, 0, .nil, ⟨⟨.nil, .nil⟩, rfl, rfl, rfl, rfl, nofun⟩⟩

end Carrying
end Builder

/-! ## The units of a template -/

/-- The units share out the tokens.  Each one goes from the first to the last of its tokens; texts and
mustaches have the characters of all tokens outside tags, in order; no text touches the text before
it; double braces with nothing in between are in a text, and double braces that are not closed are in
the last one, with all that follows. -/
structure SharesOut (ts : List Token) (us : List MarkupUnit) : Prop where
  grouped : Grouped ts us
  characters :
    String.join (us.map MarkupUnit.characters) = Token.joined (Token.outsideTags false ts)
  separate : SeparateTexts us
  emptyBraces : ∀ o c, [o, c] <:+: ts → o.kind = .interpolationStart → c.kind = .interpolationEnd →
    ∃ g r, .text r ∈ us ∧ MarkupUnit.MadeOf g (.text r) ∧ [o, c] <:+: g
  unclosedBraces : ∀ o rest, o :: rest <:+ ts → o.kind = .interpolationStart →
    (∀ t ∈ rest, t.kind ≠ .interpolationEnd) →
      ∃ g r, us.getLast? = some (.text r) ∧ MarkupUnit.MadeOf g (.text r) ∧ o :: rest <:+ g

/-- What is put out at the end of the text. -/
theorem Assembler.commit_units (a : Assembler) :
    a.commit.output.toList = a.flushInterpolation.units :=
  a.flushInterpolation.emitCurrent_output

theorem Carries.flush {a : Assembler} {m : Mode} {p : Nat} (h : Carries ts us a m p) :
    Made ts us a.flushInterpolation := by
  have hunit : ∀ {inTag : Bool}, CarriesUnit ts us a inTag → Made ts us a.flushInterpolation := by
    intro inTag h
    rw [Assembler.flushInterpolation, h.opening]
    exact h.toMade
  cases m with
  | content | tag => exact hunit h
  | interpolation => exact (CarriesBraces.flush h).1

/-- Two openings of braces with text only behind them are the same. -/
theorem suffix_of_braces {o' : Token} (h : o :: ts <:+ g) (h' : o' :: ts' <:+ g)
    (ho : o.kind = .interpolationStart) (ho' : o'.kind = .interpolationStart)
    (hts : ∀ t ∈ ts, t.kind.isText = true) (hts' : ∀ t ∈ ts', t.kind.isText = true) :
    o :: ts = o' :: ts' := by
  have hbehind : ∀ {x y : Token} {xs ys : List Token}, x.kind = .interpolationStart →
      (∀ t ∈ ys, t.kind.isText = true) → x :: xs <:+ y :: ys → x :: xs = y :: ys := by
    intro x y xs ys hx hys hsuffix
    rcases List.suffix_cons_iff.1 hsuffix with heq | hin
    · exact heq
    · have htext := hys x (hin.subset (List.mem_cons_self ..))
      simp [hx, TokenKind.isText] at htext
  rcases List.suffix_or_suffix_of_suffix h h' with hin | hin
  · exact hbehind ho hts' hin
  · exact (hbehind ho' hts hin).symm

namespace Builder.Carrying

variable {cs : List Char} {l : Locator} {taken : List Token} {b : Builder}

/-- Braces that are not closed are in the last unit, which is text. -/
theorem unclosed (h : Carrying cs l taken us b)
    (hin : o :: ts <:+ taken.filter fun t => !t.kind.isComment)
    (ho : o.kind = .interpolationStart) (hopen : ∀ t ∈ ts, t.kind ≠ .interpolationEnd) :
    ∃ g r, (us ++ b.assembler.commit.output.toList).getLast? = some (.text r) ∧
      MarkupUnit.MadeOf g (.text r) ∧ o :: ts <:+ g := by
  obtain ⟨gap, m, p, hstream, hcarries⟩ := h.carries
  obtain ⟨front, hfront⟩ := hin
  obtain ⟨front', behind, rfl, rfl, hbehind⟩ := List.filter_eq_append_iff.1 hfront.symm
  obtain ⟨skipped, rest, rfl, -, -, rfl⟩ := List.filter_eq_cons_iff.1 hbehind
  rw [← List.append_assoc] at hstream
  obtain ⟨rfl, htext⟩ := hstream.unclosed rfl ho fun t ht hk =>
    hopen t (List.mem_filter.2 ⟨ht, by simp [hk, TokenKind.isComment]⟩) hk
  have hbraces : CarriesBraces _ us b.assembler (l.host p) := hcarries
  obtain ⟨-, -, o', front', g, r, hts, ho', hcurrent, hmade⟩ := hbraces.flush
  refine ⟨_, r, ?_, hmade, g, ?_⟩
  · rw [Assembler.commit_units, Assembler.units_some hcurrent, ← List.append_assoc,
      List.getLast?_concat]
    rfl
  · rw [suffix_of_braces ⟨_, hfront⟩ ⟨front', hts.symm⟩ ho ho'
      (fun t ht => htext t (List.mem_filter.1 ht).1)
      fun t ht => hbraces.inside t (by simpa using ht)]

/-- Everything is put out. -/
theorem sharesOut (h : Carrying cs l taken us b) :
    SharesOut b.assembler.tokens.toList (us ++ b.assembler.commit.output.toList) := by
  obtain ⟨gap, m, p, -, hcarries⟩ := h.carries
  have hmade := hcarries.flush
  have hgrouped : Grouped (taken.filter fun t => !t.kind.isComment)
      (us ++ b.assembler.commit.output.toList) := by
    rw [Assembler.commit_units]
    exact hmade.grouped
  rw [h.records.tokens]
  exact {
    grouped := hgrouped
    characters := hgrouped.characters fun t ht => h.braced t (List.mem_filter.1 ht).1
    separate := by
      rw [Assembler.commit_units]
      exact hmade.separate
    emptyBraces := fun o c => hgrouped.text_of_pair
    unclosedBraces := fun o rest => h.unclosed }

end Builder.Carrying

/-- Tokens that are taken are put on record. -/
theorem Builder.Takes.records {b b' : Builder} {ts taken : List Token} (h : b.Takes ts b')
    (hb : b.assembler.Records taken) : b'.assembler.Records (taken ++ ts) := by
  induction h with
  | nothing => rwa [List.append_nil]
  | token h hpull ih =>
    rw [← List.append_assoc, Builder.take, Builder.drain_assembler]
    exact (ih.process _).congr rfl

namespace Template

/-- The tokens that are pulled in the reading of a template are on record, the comments by themselves. -/
theorem TakesAll.recorded {text : String} {o : Options} {ts : List Token} {b : Builder} {x : Lexer}
    (h : TakesAll text o ts b x) (reader : Script.Reader) :
    (parse text o reader).tokens.toList = ts.filter (fun t => !t.kind.isComment) ∧
      (parse text o reader).comments.toList = ts.filter fun t => t.kind.isComment := by
  have hstart : (startOf text o).assembler.Records [] := ⟨rfl, rfl⟩
  have hrecords : (Template.builderOf text o).assembler.Records ts := by
    rw [h.builderOf, Builder.placeRoot_closeAll_assembler, Builder.atEnd, Builder.drain_assembler]
    exact (h.takes.records hstart).congr (Assembler.record_commit _)
  rw [parse_eq, outlineOf_eq]
  exact ⟨hrecords.tokens, hrecords.comments⟩

/-- Whatever reads the embedded texts, the units share out the tokens. -/
theorem outline_sharesOut (text : String) (o : Options) (reader : Script.Reader) :
    SharesOut (parse text o reader).tokens.toList (unitsOf text o) := by
  obtain ⟨taken, us, b, hb, hunits, htokens⟩ := (Builder.Carrying.start text o).run
    (runs_startOf text o) (Builder.tokensLeft_ofChars text.toList o.origin o.tracing)
  have hparse : (parse text o reader).tokens = b.assembler.tokens := by
    rw [parse_eq, outlineOf_eq]
    dsimp only
    rw [builderOf, Builder.placeRoot_closeAll_assembler]
    exact htokens
  have htaken : unitsOf text o = us ++ b.assembler.commit.output.toList := hunits
  rw [hparse, htaken]
  exact hb.sharesOut

/-- The units that the tree of a template is built from share out its tokens, which are all that were pulled
up to the end of the text and are no comments. -/
theorem parse_sharesOut (text : String) (o : Options) (reader : Script.Reader) :
    SharesOut (parse text o reader).tokens.toList (unitsOf text o) ∧
      ∃ pulled b x, TakesAll text o pulled b x ∧
        (parse text o reader).tokens.toList = pulled.filter fun t => !t.kind.isComment := by
  obtain ⟨pulled, b, x, htakes⟩ := exists_takesAll text o
  exact ⟨outline_sharesOut text o reader, pulled, b, x, htakes, (htakes.recorded reader).1⟩

end Template

end TemplateSyntax
