import TemplateSyntax.Proofs.Lexing
import TemplateSyntax.Proofs.TokensApart
import TemplateSyntax.Proofs.UnitRun

/-! # When units are taken

A unit is taken when the last one of its tokens was pulled, or one more, or at the end of the text.  Here
is which tokens were taken then, and which units the tokens behind them make. -/

namespace TemplateSyntax

variable {ts ts' front back : List Token} {us us' : List MarkupUnit} {u : MarkupUnit} {t : Token}

/-! ## Rows of tokens -/

theorem MarkupUnit.MadeOf.ne_nil (h : u.MadeOf ts) : ts ≠ [] := by
  rintro rfl
  obtain ⟨first, -, hfirst, -⟩ := h.extent
  cases hfirst

namespace Grouped

theorem eq_nil (h : Grouped ts []) : ts = [] := by
  generalize hus : ([] : List MarkupUnit) = us at h
  cases h with
  | nil => rfl
  | snoc => simp at hus

/-- Some units are made of the first tokens, and the others of those behind them. -/
theorem split (h : Grouped ts (us ++ us')) : ∃ front back, ts = front ++ back ∧
    Grouped front us ∧ Grouped back us' ∧ (us' ≠ [] → Token.tagBehind false front = false) := by
  generalize hall : us ++ us' = all at h
  induction h generalizing us' with
  | nil =>
    obtain ⟨rfl, rfl⟩ := List.append_eq_nil_iff.1 hall
    exact ⟨[], [], rfl, .nil, .nil, fun _ => rfl⟩
  | @snoc ts g vs u h hout hu ih =>
    rcases List.eq_nil_or_concat us' with rfl | ⟨us', w, rfl⟩
    · rw [List.append_nil] at hall
      exact ⟨ts ++ g, [], (List.append_nil _).symm, hall ▸ h.snoc hout hu, .nil,
        fun hne => absurd rfl hne⟩
    · rw [List.concat_eq_append, ← List.append_assoc] at hall
      obtain ⟨hfront, hlast⟩ := List.append_inj' hall rfl
      obtain rfl := List.singleton_inj.1 hlast
      obtain ⟨front, back, rfl, hgrouped, hback, hbehind⟩ := ih hfront
      have hclosed : Token.tagBehind false front = false := by
        by_cases hnil : us' = []
        · subst hnil
          obtain rfl := hback.eq_nil
          rwa [List.append_nil] at hout
        · exact hbehind hnil
      rw [Token.tagBehind_append, hclosed] at hout
      rw [List.concat_eq_append]
      exact ⟨front, back ++ g, List.append_assoc .., hgrouped, hback.snoc hout hu, fun _ => hclosed⟩

/-- The first unit is made of the first tokens. -/
theorem uncons (h : Grouped ts (u :: us)) : ∃ g back, ts = g ++ back ∧ u.MadeOf g ∧
    Grouped back us := by
  rw [← List.singleton_append] at h
  obtain ⟨g, back, hts, hg, hback, -⟩ := h.split
  rw [← List.nil_append [u]] at hg
  obtain ⟨front, g', rfl, hfront, -, hu⟩ := hg.snoc_inv
  obtain rfl := hfront.eq_nil
  exact ⟨g', back, hts, hu, hback⟩

/-- The next unit starts with the next token. -/
theorem head (h : Grouped ts us) (hhead : ts.head? = some t) : ∃ u us' g back, us = u :: us' ∧
    ts = g ++ back ∧ u.MadeOf g ∧ Grouped back us' ∧ g.head? = some t := by
  cases us with
  | nil =>
    rw [h.eq_nil] at hhead
    cases hhead
  | cons u us =>
    obtain ⟨g, back, rfl, hu, hback⟩ := h.uncons
    rw [List.head?_append_of_ne_nil _ hu.ne_nil] at hhead
    exact ⟨u, us, g, back, rfl, rfl, hu, hback, hhead⟩

theorem eq_nil_of_nil (h : Grouped [] us) : us = [] := by
  cases us with
  | nil => rfl
  | cons u us =>
    obtain ⟨g, back, hnil, hu, -⟩ := h.uncons
    exact absurd (List.append_eq_nil_iff.1 hnil.symm).1 hu.ne_nil

/-- The last token is where the last unit stops. -/
theorem getLast? (h : Grouped ts (us ++ [u])) :
    ∃ t, ts.getLast? = some t ∧ t.extent.span.stop = u.extent.span.stop := by
  obtain ⟨front, g, rfl, -, -, hu⟩ := h.snoc_inv
  obtain ⟨first, last, -, hlast, hextent⟩ := hu.extent
  refine ⟨last, ?_, by rw [hextent]; rfl⟩
  rw [List.getLast?_append, hlast]
  rfl

end Grouped

namespace Template.PiecesApart

variable {tree : Template} {o : Origin} {size : Nat} {x y : Token}

/-- The tokens up to a place. -/
theorem front_eq (h : tree.PiecesApart o size) (hts : ts <+: tree.tokens.toList)
    (hts' : ts' <+: tree.tokens.toList) (hx : ts.getLast? = some x) (hy : ts'.getLast? = some y)
    (hstop : x.extent.span.stop = y.extent.span.stop) : ts = ts' := by
  have hpiece : ∀ {z : Token} {zs : List Token}, zs <+: tree.tokens.toList → z ∈ zs →
      z ∈ tree.pieces ∧ z.extent.span.start < z.extent.span.stop := by
    intro z zs hzs hz
    have hmem : z ∈ tree.pieces := mem_pieces.2 (.inl (Array.mem_toList_iff.1 (hzs.subset hz)))
    exact ⟨hmem, (h.within z hmem).2.1⟩
  obtain ⟨hxmem, hxlt⟩ := hpiece hts (List.mem_of_getLast? hx)
  obtain ⟨hymem, hylt⟩ := hpiece hts' (List.mem_of_getLast? hy)
  obtain rfl : x = y := h.eq_of_overlap hxmem hymem (by omega) (by omega)
  -- the longer one would have the token once more
  have hlonger : ∀ {zs zs' : List Token}, zs' <+: tree.tokens.toList → zs.getLast? = some x →
      zs'.getLast? = some x → zs <+: zs' → zs = zs' := by
    rintro zs _ hzs' hlast hlast' ⟨more, rfl⟩
    cases more with
    | nil => exact (List.append_nil zs).symm
    | cons z more =>
      rw [List.getLast?_append_of_ne_nil _ (List.cons_ne_nil z more)] at hlast'
      have hlt := (List.pairwise_append.1 (h.tokens.sublist hzs'.sublist)).2.2 x
        (List.mem_of_getLast? hlast) x (List.mem_of_getLast? hlast')
      exact absurd hlt (Nat.lt_irrefl _)
  rcases List.prefix_or_prefix_of_prefix hts hts' with hle | hle
  · exact hlonger hts' hx hy hle
  · exact (hlonger hts hy hx hle).symm

/-- The units behind those that the first tokens make are made of the others. -/
theorem grouped_behind (h : tree.PiecesApart o size)
    (hall : Grouped tree.tokens.toList (us ++ [u] ++ us')) (hfront : Grouped front (us ++ [u]))
    (heq : tree.tokens.toList = front ++ back) : Grouped back us' := by
  obtain ⟨front', back', heq', hfront', hback', -⟩ := hall.split
  obtain ⟨x, hx, hstop⟩ := hfront.getLast?
  obtain ⟨y, hy, hstop'⟩ := hfront'.getLast?
  obtain rfl := h.front_eq ⟨back, heq.symm⟩ ⟨back', heq'.symm⟩ hx hy (hstop.trans hstop'.symm)
  obtain rfl := List.append_cancel_left (heq.symm.trans heq')
  exact hback'

end Template.PiecesApart

namespace Builder

/-! ## When a unit is taken -/

variable {b b' : Builder} {cs : List Char} {taken : List Token} {m : Builder × MarkupUnit} {x : Lexer}

/-- Of the units that are taken on a run, this one is taken when a token was pulled or the text was at its
end, behind some tokens.  `all` are the units with the builders that take them, and `front` those of them
that are taken before. -/
inductive TakenAt (b : Builder) (m : Builder × MarkupUnit) (all : List (Builder × MarkupUnit))
    (ts : List Token) (b' : Builder) (front : List (Builder × MarkupUnit)) : Prop
  | token {t : Token} {x : Lexer} {behind : List (Builder × MarkupUnit)} (takes : b.Takes ts b')
      (pull : b'.lexer.pull = (some t, x))
      (mem : m ∈ takers (b'.assembler.process t).output.toList (b'.inFront x (b'.assembler.process t)))
      (eq : all = front ++ (takers (b'.assembler.process t).output.toList
        (b'.inFront x (b'.assembler.process t)) ++ behind))
  | atEnd {x : Lexer} (takes : b.Takes ts b') (pull : b'.lexer.pull = (none, x))
      (mem : m ∈ takers b'.assembler.commit.output.toList (b'.inFront x b'.assembler.commit))
      (eq : all = front ++ takers b'.assembler.commit.output.toList (b'.inFront x b'.assembler.commit))

theorem TakenAt.cons {all front now : List (Builder × MarkupUnit)} {ts : List Token} {c : Builder}
    (h : TakenAt (b.take t x) m all ts c front) (hpull : b.lexer.pull = (some t, x)) :
    b.TakenAt m (now ++ all) (t :: ts) c (now ++ front) := by
  cases h with
  | token takes pull mem eq => exact .token (.cons hpull takes) pull mem (by rw [eq, List.append_assoc])
  | atEnd takes pull mem eq => exact .atEnd (.cons hpull takes) pull mem (by rw [eq, List.append_assoc])

/-- Each unit is taken at some time. -/
theorem exists_takenAt {fuel : Nat} (hr : Runs cs loc taken b) (hc : Carrying cs loc taken us b)
    (hm : m ∈ b.moments fuel) : ∃ ts b' front, b.TakenAt m (b.moments fuel) ts b' front ∧
      Carrying cs loc (taken ++ ts) (us ++ front.map Prod.snd) b' := by
  induction fuel generalizing b taken us with
  | zero => cases hm
  | succ fuel ih =>
    cases hr.next with
    | @ended x hpull =>
      rw [moments, hpull] at hm ⊢
      exact ⟨[], b, [], .atEnd .nothing hpull hm rfl, by simpa using hc⟩
    | @token t x hpull hx hloc hruns =>
      rw [moments, hpull] at hm ⊢
      by_cases hnow : m ∈ takers (b.assembler.process t).output.toList (b.inFront x (b.assembler.process t))
      · exact ⟨[], b, [], .token .nothing hpull hnow rfl, by simpa using hc⟩
      · obtain ⟨ts, b', front, htaken, hcarrying⟩ :=
          ih hruns (hc.take hpull hx hloc) ((List.mem_append.1 hm).resolve_left hnow)
        refine ⟨t :: ts, b', _, htaken.cons hpull, ?_⟩
        rw [List.map_append, takers_units, List.append_cons, ← List.append_assoc]
        exact hcarrying

/-- The assembler waits for nothing: all tokens are those of units that were taken. -/
theorem Carrying.grouped_of_idle (h : Carrying cs loc taken us b) (hi : b.assembler.Idle) :
    Grouped (taken.filter fun t => !t.kind.isComment) us := by
  obtain ⟨gap, mode, p, -, hcarries⟩ := h.carries
  have hunits : b.assembler.units = [] := by
    rw [Assembler.units_none hi.current, hi.output]
  have hunit : ∀ {inTag : Bool}, CarriesUnit (taken.filter fun t => !t.kind.isComment) us
      b.assembler inTag → Grouped (taken.filter fun t => !t.kind.isComment) us := by
    intro inTag hu
    have hgrouped := hu.grouped
    rwa [hunits, List.append_nil] at hgrouped
  cases mode with
  | content | tag => exact hunit hcarries
  | interpolation =>
    obtain ⟨_, _, -, ho, -⟩ := CarriesBraces.braces hcarries
    rw [hi.opening] at ho
    cases ho

/-- A start tag that is still open at the end of the text was not closed by its last token. -/
theorem Carrying.not_closesTag (h : Carrying cs loc taken us b) {tag : StartTag}
    (hcurrent : b.assembler.current = some (.startTag tag))
    (hlast : (taken.filter fun t => !t.kind.isComment).getLast? = some t) :
    t.kind.closesTag = false := by
  obtain ⟨gap, mode, p, -, hcarries⟩ := h.carries
  have hinTag : b.assembler.inTag = true := by
    rw [Assembler.inTag, hcurrent]
    rfl
  cases mode with
  | content => exact absurd (hinTag.symm.trans (CarriesUnit.inTag hcarries)) (by decide)
  | interpolation =>
    obtain ⟨_, _, -, -, -, -, -, htext, -⟩ := CarriesBraces.braces hcarries
    exact absurd (hinTag.symm.trans htext.noTag) (by decide)
  | tag =>
    have hbehind := CarriesUnit.behind hcarries
    obtain ⟨front, hfront⟩ := List.getLast?_eq_some_iff.1 hlast
    rw [hfront, Token.tagBehind_append] at hbehind
    rw [← Bool.not_eq_true]
    intro hcloses
    cases hk : t.kind <;>
      simp [hk, TokenKind.closesTag, Token.tagBehind, TokenKind.tagBehind] at hcloses hbehind

/-- Tags keep what holds of their tokens, while tokens are taken. -/
theorem Takes.tagsAre {P : TokenKind → String → Nat → Prop} (h : b.Takes ts b')
    (hb : b.assembler.TagsAre P) (hts : ∀ t ∈ ts, t.kind = .tagOpen ∨ t.kind = .endTagOpen →
      P t.kind t.value t.extent.span.start) : b'.assembler.TagsAre P := by
  induction h with
  | nothing => exact hb
  | @token ts b' t x h hpull ih =>
    obtain ⟨hfront, ht⟩ := List.forall_mem_append.1 hts
    rw [take, drain_assembler]
    exact ⟨((ih hfront).process (ht t (List.mem_singleton_self t))).current, by simp⟩

end Builder

namespace Template

variable {text : String} {o : Options} {b : Builder} {tag : StartTag}

/-- The token that a tag starts with is there, and has the name of the tag. -/
theorem tagIs_of_mem_unitsOf (reader : Script.Reader) (hu : u ∈ unitsOf text o) :
    u.TagIs fun k name start => ∃ t ∈ (parse text o reader).tokens, t.kind = k ∧ t.value = name ∧
      t.extent.span.start = start := by
  have hstart : (startOf text o).assembler.TagsAre fun k name start =>
      ∃ t ∈ (parse text o reader).tokens, t.kind = k ∧ t.value = name ∧
        t.extent.span.start = start := by
    refine ⟨?_, ?_⟩ <;> simp [startOf, Builder.ofChars]
  have hthere : ∀ {ts c}, (startOf text o).Takes ts c → ∀ t ∈ ts,
      t.kind = .tagOpen ∨ t.kind = .endTagOpen → ∃ t' ∈ (parse text o reader).tokens,
        t'.kind = t.kind ∧ t'.value = t.value ∧ t'.extent.span.start = t.extent.span.start := by
    intro ts c htakes t ht hk
    refine ⟨t, (mem_parse_of_takes htakes reader ht).2 ?_, rfl, rfl, rfl⟩
    rcases hk with hk | hk <;> rw [hk] <;> rfl
  rw [← moments_units] at hu
  obtain ⟨m, hm, rfl⟩ := List.mem_map.1 hu
  obtain ⟨ts, b, front, htaken, -⟩ :=
    Builder.exists_takenAt (runs_startOf text o) (.start text o) hm
  cases htaken with
  | @token t x behind takes pull mem eq =>
    have hmem := List.mem_map_of_mem (f := Prod.snd) mem
    rw [Builder.takers_units, Array.mem_toList_iff] at hmem
    refine ((takes.tagsAre hstart (hthere takes)).process ?_).output _ hmem
    exact hthere (takes.token pull) t (by simp)
  | atEnd takes pull mem eq =>
    have hmem := List.mem_map_of_mem (f := Prod.snd) mem
    rw [Builder.takers_units, Array.mem_toList_iff] at hmem
    exact (takes.tagsAre hstart (hthere takes)).commit.output _ hmem

/-- An end tag has the name of the token that it starts with. -/
theorem rawName_eq_of_start {endTag : EndTag} (hu : .endTag endTag ∈ unitsOf text o)
    (ht : t ∈ (parse text o).tokens)
    (hstart : endTag.extent.span.start = t.extent.span.start) : endTag.rawName = t.value := by
  have happart := outline_piecesApart text o Script.parse
  obtain ⟨y, hy, -, hvalue, hat⟩ := tagIs_of_mem_unitsOf Script.parse hu
  have hmem := mem_pieces.2 (.inl ht)
  have hmem' := mem_pieces.2 (.inl hy)
  have hlt := (happart.within t hmem).2.1
  have hlt' := (happart.within y hmem').2.1
  obtain rfl := happart.eq_of_overlap hmem hmem' (by omega) (by omega)
  exact hvalue.symm

/-- The start tag is taken with the token `t` that closes it, behind the tokens `ts`.  The units `front`
are taken before it, and the units `behind` after it. -/
structure TakesStartTag (text : String) (o : Options) (tag : StartTag) (ts : List Token) (b : Builder)
    (t : Token) (x : Lexer) (front behind : List (Builder × MarkupUnit)) : Prop where
  takes : (startOf text o).Takes ts b
  pull : b.lexer.pull = (some t, x)
  closes : t.kind.closesTag = true
  stop : t.extent.span.stop = tag.extent.span.stop
  output : (b.assembler.process t).output = #[.startTag tag]
  moments : moments text o =
    front ++ (b.inFront x (b.assembler.process t), .startTag tag) :: behind
  grouped : Grouped ((ts ++ [t]).filter fun t => !t.kind.isComment)
    (front.map Prod.snd ++ [.startTag tag])

/-- A start tag that ends with a token that closes a tag is taken with that token. -/
theorem exists_takesStartTag (hm : (b, .startTag tag) ∈ moments text o)
    (ht : t ∈ (parse text o).tokens) (hk : t.kind.closesTag = true)
    (hstop : t.extent.span.stop = tag.extent.span.stop) : ∃ ts c x front behind,
      TakesStartTag text o tag ts c t x front behind ∧ b = c.inFront x (c.assembler.process t) := by
  have happart := outline_piecesApart text o Script.parse
  have hpiece : ∀ {y : Token}, y ∈ (parse text o).tokens →
      y.extent.span.stop = tag.extent.span.stop → y = t := by
    intro y hy hstop'
    have hmem := mem_pieces.2 (.inl hy)
    have hmem' := mem_pieces.2 (.inl ht)
    have hlt := (happart.within y hmem).2.1
    have hlt' := (happart.within t hmem').2.1
    exact happart.eq_of_overlap hmem hmem' (by omega) (by omega)
  obtain ⟨ts, c, front, htaken, hcarrying⟩ :=
    Builder.exists_takenAt (runs_startOf text o) (.start text o) hm
  rw [List.nil_append, List.nil_append] at hcarrying
  cases htaken with
  | @token t' x behind takes pull mem eq =>
    have hruns := takes.runs (runs_startOf text o)
    have hmode := takes.keepsMode (runs_startOf text o) (Builder.keepsMode_ofChars _ _ _)
    have hmem := List.mem_map_of_mem (f := Prod.snd) mem
    rw [Builder.takers_units] at hmem
    obtain ⟨houtput, -, -⟩ := (hmode.fits_process hruns pull).start tag hmem
    rw [houtput] at mem eq
    obtain rfl := congrArg Prod.fst (List.mem_singleton.1 mem)
    cases hruns.next with
    | ended hpull' _ _ _ => exact absurd (pull.symm.trans hpull') (by simp)
    | token hpull' hx hloc hruns' _ _ =>
      obtain ⟨ht', rfl⟩ := Prod.mk.inj (pull.symm.trans hpull')
      obtain rfl := Option.some.inj ht'
      obtain ⟨_, _, _, _, -, -, -, hunits, -⟩ := hruns.process hx hloc
      have hcloses := hunits.closed tag hmem
      obtain ⟨_, -, hidle⟩ := hruns.process_idle hx hloc hcloses
      have hidle' : (c.take t' x).assembler.Idle := by
        rw [Builder.take, Builder.drain_assembler]
        exact hidle
      have hgrouped := (hcarrying.take pull hx hloc).grouped_of_idle hidle'
      rw [houtput] at hgrouped
      obtain ⟨y, hlast, hlaststop⟩ := hgrouped.getLast?
      have hcomment : t'.kind.isComment = false := by
        cases hk' : t'.kind <;> rw [hk'] at hcloses <;> first | rfl | cases hcloses
      rw [List.filter_append, List.filter_singleton, hcomment] at hlast
      obtain rfl := Option.some.inj ((List.getLast?_concat).symm.trans hlast)
      obtain rfl := hpiece ((mem_parse_of_takes (takes.token pull) _ (by simp)).2 hcomment) hlaststop
      exact ⟨ts, c, x, front, behind,
        ⟨takes, pull, hcloses, hlaststop, Array.toList_inj.1 houtput, eq, hgrouped⟩, rfl⟩
  | @atEnd x takes pull mem eq =>
    -- then it is open at the end of the text
    exfalso
    have hruns := takes.runs (runs_startOf text o)
    have hmem := List.mem_map_of_mem (f := Prod.snd) mem
    rw [Builder.takers_units, Array.mem_toList_iff] at hmem
    obtain ⟨hcurrent, houtput⟩ := Builder.commit_startTag hruns hmem
    have hgrouped := hcarrying.sharesOut.grouped
    rw [hcarrying.records.tokens, houtput] at hgrouped
    obtain ⟨y, hlast, hlaststop⟩ := hgrouped.getLast?
    obtain ⟨hy, hcomment⟩ := List.mem_filter.1 (List.mem_of_getLast? hlast)
    obtain rfl := hpiece ((mem_parse_of_takes takes _ hy).2 (by simpa using hcomment)) hlaststop
    rw [hcarrying.not_closesTag hcurrent hlast] at hk
    cases hk

end Template
end TemplateSyntax
