import TemplateSyntax.Proofs.RawText
import TemplateSyntax.Proofs.TakenUnits

/-! # The units of raw text

The tokens of raw text make one text, and the token of the end tag behind them starts an end tag. -/

namespace TemplateSyntax

open Text (byteLength unifyBreaks sameLetters)

variable {ts ts' rest : List Token} {us us' : List MarkupUnit} {u : MarkupUnit} {t : Token}
  {loc : Locator} {i j : Nat} {v r : List Char} {e : Extent}

/-! ## The text and the end tag -/

namespace RawTokens

/-- The values of the tokens together are the text. -/
theorem joined (h : RawTokens loc i j ts v) : Token.joined ts = String.ofList v := by
  induction h with
  | nothing => rfl
  | token _ _ _ ih =>
    rw [Token.joined_append, ih, Token.joined_singleton, String.ofList_append]
    rfl

theorem le (h : RawTokens loc i j ts v) : i ≤ j := by
  induction h with
  | nothing => exact Nat.le_refl _
  | token _ _ hlt ih => exact Nat.le_of_lt (Nat.lt_of_le_of_lt ih hlt)

theorem eq_of_nil (h : RawTokens loc i j [] v) : j = i ∧ v = [] := by
  generalize hts : ([] : List Token) = ts at h
  cases h with
  | nothing => exact ⟨rfl, rfl⟩
  | token => simp at hts

theorem lt_of_ne_nil (h : RawTokens loc i j ts v) (hne : ts ≠ []) : i < j := by
  cases h with
  | nothing => exact absurd rfl hne
  | token h _ hlt => exact Nat.lt_of_le_of_lt h.le hlt

/-- No token of raw text is a comment. -/
theorem filter_eq (h : RawTokens loc i j ts v) : (ts.filter fun t => !t.kind.isComment) = ts := by
  refine List.filter_eq_self.2 fun t ht => ?_
  have hraw := h.isRawText t ht
  cases hk : t.kind <;> rw [hk] at hraw <;> first | rfl | cases hraw

/-- The first tokens, and those behind them. -/
theorem split (h : RawTokens loc i j (ts ++ ts') v) : ∃ k w w', RawTokens loc i k ts w ∧
    RawTokens loc k j ts' w' ∧ v = w ++ w' := by
  generalize hall : ts ++ ts' = all at h
  induction h generalizing ts' with
  | nothing =>
    obtain ⟨rfl, rfl⟩ := List.append_eq_nil_iff.1 hall
    exact ⟨i, [], [], .nothing, .nothing, rfl⟩
  | @token j k all v w kind h hk hlt ih =>
    rcases List.eq_nil_or_concat ts' with rfl | ⟨ts', t, rfl⟩
    · rw [List.append_nil] at hall
      exact ⟨k, v ++ w, [], hall ▸ h.token hk hlt, .nothing, (List.append_nil _).symm⟩
    · rw [List.concat_eq_append, ← List.append_assoc] at hall
      obtain ⟨hfront, hlast⟩ := List.append_inj' hall rfl
      obtain rfl := List.singleton_inj.1 hlast
      obtain ⟨m, u, u', hto, hfrom, rfl⟩ := ih hfront
      rw [List.concat_eq_append]
      exact ⟨m, u, u' ++ w, hto, hfrom.token hk hlt, List.append_assoc ..⟩

/-- The tokens go from the first index to the last one. -/
theorem bounds (h : RawTokens loc i j ts v) :
    (∀ t, ts.head? = some t → t.extent.span.start = loc.host i ∧ t.extent.loc.start =
      (loc.extent ⟨loc.host i, loc.host j⟩).loc.start) ∧
      ∀ t, ts.getLast? = some t → t.extent.span.stop = loc.host j ∧ t.extent.loc.stop =
        (loc.extent ⟨loc.host i, loc.host j⟩).loc.stop := by
  induction h with
  | nothing => exact ⟨nofun, nofun⟩
  | @token j k ts v w kind h hk hlt ih =>
    refine ⟨fun t ht => ?_, fun t ht => ?_⟩
    · cases ts with
      | nil =>
        obtain rfl := Option.some.inj ht
        obtain ⟨rfl, -⟩ := h.eq_of_nil
        exact ⟨rfl, rfl⟩
      | cons x ts => exact ih.1 t ht
    · rw [List.getLast?_concat] at ht
      obtain rfl := Option.some.inj ht
      exact ⟨rfl, rfl⟩

theorem extent_eq (h : RawTokens loc i j ts v) (he : e.Spans ts) :
    e = loc.extent ⟨loc.host i, loc.host j⟩ := by
  obtain ⟨first, last, hfirst, hlast, rfl⟩ := he
  obtain ⟨hstart, hline⟩ := h.bounds.1 first hfirst
  obtain ⟨hstop, hline'⟩ := h.bounds.2 last hlast
  rw [Extent.through, hstart, hline, hstop, hline']
  rfl

end RawTokens

namespace MarkupUnit.MadeOf

variable {g : List Token}

/-- A unit that starts with a token of raw text is text. -/
theorem eq_text (h : u.MadeOf g) (hhead : g.head? = some t) (ht : t.kind.isRawText = true) :
    ∃ r, u = .text r ∧ r.OfTokens g := by
  have htag : ∀ {k : TokenKind}, k.isRawText = false → ¬ Token.OfTag k g := by
    rintro k hk ⟨o, parts, rfl, rfl, -⟩
    obtain rfl := Option.some.inj hhead
    rw [ht] at hk
    cases hk
  cases u with
  | text r => exact ⟨r, rfl, h.tokens⟩
  | startTag tag => exact absurd h.tokens (htag rfl)
  | endTag tag => exact absurd h.tokens (htag rfl)
  | mustache m =>
    have hm : m.OfTokens g := h.tokens
    obtain ⟨inside, rfl, -⟩ := hm.tokens
    obtain rfl := Option.some.inj hhead
    rw [hm.opening] at ht
    cases ht

/-- A unit that starts with the token of an end tag is one. -/
theorem eq_endTag (h : u.MadeOf g) (hhead : g.head? = some t) (ht : t.kind = .endTagOpen) :
    ∃ tag, u = .endTag tag := by
  cases u with
  | endTag tag => exact ⟨tag, rfl⟩
  | startTag tag =>
    have htag : Token.OfTag .tagOpen g := h.tokens
    obtain ⟨o, parts, rfl, ho, -⟩ := htag
    obtain rfl := Option.some.inj hhead
    cases ho.symm.trans ht
  | text r =>
    have hr : r.OfTokens g := h.tokens
    have hcontent := hr.inContent t (List.mem_of_head? hhead)
    rw [ht] at hcontent
    cases hcontent
  | mustache m =>
    have hm : m.OfTokens g := h.tokens
    obtain ⟨inside, rfl, -⟩ := hm.tokens
    obtain rfl := Option.some.inj hhead
    cases hm.opening.symm.trans ht

end MarkupUnit.MadeOf

namespace Grouped

/-- Tokens of raw text in front of an end tag, or of the end of the text, make one text. -/
theorem rawText (h : Grouped (ts ++ rest) us) (hsep : SeparateTexts us)
    (hraw : RawTokens loc i j ts v) (hne : ts ≠ [])
    (hrest : ∀ t, rest.head? = some t → t.kind = .endTagOpen) :
    ∃ us', us = .text ⟨String.ofList v, loc.extent ⟨loc.host i, loc.host j⟩⟩ :: us' ∧
      Grouped rest us' := by
  obtain ⟨t, hhead⟩ := Option.ne_none_iff_exists'.1 (mt List.head?_eq_none_iff.1 hne)
  obtain ⟨u, us', g, back, rfl, hall, hu, hback, hg⟩ := h.head (t := t) <| by
    rw [List.head?_append_of_ne_nil _ hne, hhead]
  obtain ⟨r, rfl, hr⟩ := hu.eq_text hg (hraw.isRawText t (List.mem_of_head? hhead))
  -- the row of the text stops in front of the end tag, and not before that
  have hrow : g = ts ∧ back = rest := by
    rcases List.append_eq_append_iff.1 hall with ⟨more, rfl, hmore⟩ | ⟨more, rfl, rfl⟩
    · cases more with
      | nil => exact ⟨List.append_nil ts, hmore.symm⟩
      | cons x more =>
        have hx := hr.inContent x (List.mem_append_right _ (List.mem_cons_self ..))
        rw [hrest x (by rw [hmore]; rfl)] at hx
        cases hx
    · by_cases hnil : more = []
      · subst hnil
        exact ⟨(List.append_nil g).symm, rfl⟩
      · exfalso
        obtain ⟨k, w, w', hto, hfrom, -⟩ := hraw.split
        obtain ⟨x, hx⟩ := Option.ne_none_iff_exists'.1 (mt List.head?_eq_none_iff.1 hnil)
        obtain ⟨u', us'', g', back', rfl, -, hu', -, hg'⟩ := hback.head (t := x) <| by
          rw [List.head?_append_of_ne_nil _ hnil, hx]
        obtain ⟨r', rfl, -⟩ := hu'.eq_text hg' (hfrom.isRawText x (List.mem_of_head? hx))
        have hapart := (List.isChain_cons_cons.1 hsep).1
        obtain ⟨first, last, -, hlast, hextent⟩ := hu.extent
        obtain ⟨first', last', hfirst', -, hextent'⟩ := hu'.extent
        refine hapart ?_
        show r.extent.span.stop = r'.extent.span.start
        rw [show r.extent = _ from hextent, show r'.extent = _ from hextent']
        obtain rfl := Option.some.inj (hfirst'.symm.trans hg')
        exact (hto.bounds.2 last hlast).1.trans (hfrom.bounds.1 _ hx).1.symm
  obtain ⟨rfl, rfl⟩ := hrow
  obtain ⟨value, extent⟩ := r
  have hvalue : value = String.ofList v := hr.value.trans hraw.joined
  have hextent : extent = loc.extent ⟨loc.host i, loc.host j⟩ := hraw.extent_eq hu.extent
  exact ⟨us', by rw [hvalue, hextent], hback⟩

/-- The token of an end tag starts one. -/
theorem endTag (h : Grouped (t :: rest) us) (ht : t.kind = .endTagOpen) :
    ∃ tag us', us = .endTag tag :: us' ∧ tag.extent.span.start = t.extent.span.start := by
  obtain ⟨u, us', g, back, rfl, -, hu, -, hg⟩ := h.head rfl
  obtain ⟨tag, rfl⟩ := hu.eq_endTag hg ht
  obtain ⟨first, last, hfirst, -, hextent⟩ := hu.extent
  obtain rfl := Option.some.inj (hfirst.symm.trans hg)
  exact ⟨tag, us', rfl, by rw [show tag.extent = _ from hextent]; rfl⟩

end Grouped

/-- The text that raw text makes from an index on, unless there is none. -/
def rawRun? (loc : Locator) (i : Nat) (r : List Char) : Option TextRun :=
  if r = [] then none
  else some ⟨String.ofList (unifyBreaks r), loc.extent ⟨loc.host i, loc.host (i + byteLength r)⟩⟩

/-- The tokens of some raw text make one text, and those behind them the other units. -/
theorem Grouped.rawRun (h : Grouped (ts ++ rest) us) (hsep : SeparateTexts us)
    (hraw : RawTokens loc i (i + byteLength r) ts (unifyBreaks r))
    (hrest : ∀ t, rest.head? = some t → t.kind = .endTagOpen) :
    ∃ us', us = (rawRun? loc i r).toList.map MarkupUnit.text ++ us' ∧ Grouped rest us' := by
  by_cases hts : ts = []
  · subst hts
    have hzero : byteLength r = 0 := Nat.add_left_cancel hraw.eq_of_nil.1
    rw [rawRun?, if_pos (Text.byteLength_eq_zero.1 hzero)]
    exact ⟨us, rfl, h⟩
  · have hne : r ≠ [] := by
      rintro rfl
      exact Nat.lt_irrefl _ (hraw.lt_of_ne_nil hts)
    obtain ⟨us', hus, hgrouped⟩ := h.rawText hsep hraw hts hrest
    rw [rawRun?, if_neg hne]
    exact ⟨us', hus, hgrouped⟩

/-- Where raw text was read, there are tokens of raw text. -/
theorem RawTokens.covers (h : RawTokens loc i j ts v) {offset : Nat} (hlo : loc.host i ≤ offset)
    (hhi : offset < loc.host j) : ∃ t ∈ ts, t.extent.span.start ≤ offset ∧
      offset < t.extent.span.stop := by
  induction h with
  | nothing => omega
  | @token j k ts v w kind h hk hlt ih =>
    by_cases hlast : loc.host j ≤ offset
    · exact ⟨_, List.mem_append_right _ (List.mem_singleton_self _), hlast, hhi⟩
    · obtain ⟨t, ht, hin⟩ := ih (Nat.lt_of_not_le hlast)
      exact ⟨t, List.mem_append_left _ ht, hin⟩

/-! ## Reading -/

namespace Builder

variable {b b' c : Builder} {l : Lexer} {cs : List Char} {taken : List Token} {name : String}

/-- Raw text that starts where it is read from. -/
theorem ReadsRawText.ofStart (h : b.ReadsRawText [] loc name i i [] [] r) :
    ∃ p new b' l', RawTextEnds name r p ∧ b.Lexes new b' l' ∧
      RawTokens loc i (i + byteLength (r.take p)) new (unifyBreaks (r.take p)) ∧
        l'.RawTextOver loc name (i + byteLength (r.take p)) (r.drop p) := by
  obtain ⟨p, new, b', l', stop, value, hends, hlexes, htokens, hvalue, hindex, hover⟩ := h
  rw [List.nil_append] at hlexes htokens hvalue
  have hlength : byteLength r = byteLength (r.take p) + byteLength (r.drop p) := by
    rw [← Text.byteLength_append, List.take_append_drop]
  obtain rfl : stop = i + byteLength (r.take p) := by omega
  have hback : (r.drop p).head? ≠ some '\n' := by
    rcases hends.here with hstarts | rfl
    · obtain ⟨tail, htail⟩ := hstarts.eq_cons
      simp [htail]
    · rw [List.drop_length]
      nofun
  have hunify : unifyBreaks r = unifyBreaks (r.take p) ++ unifyBreaks (r.drop p) := by
    rw [← Text.unifyBreaks_append hback, List.take_append_drop]
  rw [hunify] at hvalue
  obtain rfl := List.append_cancel_right hvalue
  exact ⟨p, new, b', l', hends, hlexes, htokens, hover⟩

/-- Behind raw text the token of its end tag is taken, or nothing at all. -/
theorem Lexes.rest_of_rawTextOver (hl : b.Lexes ts b' l) (hr : Runs cs loc taken b)
    (h : l.RawTextOver loc name j r) (hrest : b'.Takes rest c) (hend : c.lexer.pull.1 = none) :
    (rest = [] ∧ r = []) ∨ ∃ w stop rest',
      rest = loc.token ⟨.endTagOpen, j, String.ofList w⟩ stop :: rest' ∧
        sameLetters (String.ofList w) name = true := by
  have hpull := hl.pull hr
  cases rest with
  | nil =>
    obtain rfl := hrest.eq_of_nil
    rw [hpull] at hend
    cases h with
    | atEnd hnil => exact .inl ⟨rfl, hnil⟩
    | endTag _ _ hready =>
      rw [show l.pull = _ from Lexer.run_ready hready _] at hend
      cases hend
  | cons t rest =>
    obtain ⟨x, ht, -⟩ := hrest.uncons
    rw [hpull] at ht
    cases h with
    | atEnd _ hended hready =>
      rw [show l.pull = _ from Lexer.run_finished hready hended _] at ht
      cases ht
    | @endTag w stop _ _ hsame hready =>
      rw [show l.pull = _ from Lexer.run_ready hready _] at ht
      obtain rfl := Option.some.inj (Prod.mk.inj ht).1
      exact .inr ⟨w, stop, rest, rfl, hsame⟩

end Builder
end TemplateSyntax
