import Mathlib.Data.List.Chain
import TemplateSyntax.Proofs.BraceTokens
import TemplateSyntax.Proofs.OutlineReports

/-! # Character data

Text waits at two places until it is put out: in the unit that may still grow, and behind double braces
that are not closed.  `Grouped` says that the tokens fall into rows, one for each unit, so that no token
is lost or used twice; `Carries` says so of the units that are out together with the one that may still
grow, for each thing that a stream of tokens can stop in the middle of.  It follows that the units of a
template have the same characters as its tokens outside tags. -/

namespace TemplateSyntax

variable {ts ts' g : List Token} {us : List MarkupUnit} {u : MarkupUnit} {tok : Token}

/-! ## Tokens -/

namespace Token

/-- The values of tokens in a row. -/
def joined (ts : List Token) : String := String.join (ts.map value)

theorem joined_append (ts ts' : List Token) : joined (ts ++ ts') = joined ts ++ joined ts' := by
  rw [joined, List.map_append, String.join_append, joined, joined]

theorem joined_cons (t : Token) (ts : List Token) : joined (t :: ts) = t.value ++ joined ts := by
  rw [joined, List.map_cons, String.join_cons, joined]

theorem joined_singleton (t : Token) : joined [t] = t.value := by
  rw [joined_cons, joined, List.map_nil, String.join_nil, String.append_empty]

end Token

theorem Assembler.joinValues_eq (ts : Array Token) : joinValues ts = Token.joined ts.toList := by
  rw [joinValues, ← Array.foldl_toList, Token.joined, String.join, List.foldl_map]

/-- Whether a tag is open behind a token of this kind. -/
def TokenKind.tagBehind (inTag : Bool) : TokenKind → Bool
  | .tagOpen | .endTagOpen => true
  | .tagClose | .selfClosingTagClose => false
  | _ => inTag

namespace Token

/-- Whether a tag is open behind some tokens. -/
def tagBehind (inTag : Bool) (ts : List Token) : Bool :=
  ts.foldl (fun inTag t => t.kind.tagBehind inTag) inTag

/-- The tokens of character data, those inside a tag left out. -/
def outsideTags : Bool → List Token → List Token
  | _, [] => []
  | inTag, t :: ts =>
    (if !inTag && t.kind.inContent then [t] else []) ++ outsideTags (t.kind.tagBehind inTag) ts

theorem tagBehind_append (inTag : Bool) (ts ts' : List Token) :
    tagBehind inTag (ts ++ ts') = tagBehind (tagBehind inTag ts) ts' :=
  List.foldl_append

theorem outsideTags_append (inTag : Bool) (ts ts' : List Token) :
    outsideTags inTag (ts ++ ts') =
      outsideTags inTag ts ++ outsideTags (tagBehind inTag ts) ts' := by
  induction ts generalizing inTag with
  | nil => rfl
  | cons t ts ih =>
    rw [List.cons_append, outsideTags, outsideTags, ih, List.append_assoc]
    rfl

/-- Character data opens and closes no tag. -/
theorem tagBehind_of_inContent {inTag : Bool} (h : ∀ t ∈ ts, t.kind.inContent = true) :
    tagBehind inTag ts = inTag := by
  induction ts with
  | nil => rfl
  | cons t ts ih =>
    obtain ⟨ht, hts⟩ := List.forall_mem_cons.1 h
    have hkind : t.kind.tagBehind inTag = inTag := by
      cases hk : t.kind <;> rw [hk] at ht <;> first | rfl | exact absurd ht (by decide)
    rw [tagBehind, List.foldl_cons, hkind]
    exact ih hts

theorem outsideTags_of_inContent (h : ∀ t ∈ ts, t.kind.inContent = true) :
    outsideTags false ts = ts := by
  induction ts with
  | nil => rfl
  | cons t ts ih =>
    obtain ⟨ht, hts⟩ := List.forall_mem_cons.1 h
    have hkind : tagBehind false [t] = false :=
      tagBehind_of_inContent fun x hx => List.mem_singleton.1 hx ▸ ht
    rw [tagBehind, List.foldl_cons, List.foldl_nil] at hkind
    rw [outsideTags, hkind, ih hts, Bool.not_false, Bool.true_and, if_pos ht, List.singleton_append]

end Token

/-- A part of a tag closes it, or the tag stays open. -/
theorem TokenKind.tagBehind_of_after {k : TokenKind} {m : Mode} (h : Mode.tag.after k = some m) :
    k.tagBehind true = decide (m = .tag) := by
  cases k <;> cases m <;> first | rfl | exact absurd h (by decide)

/-! ## What a unit is made of -/

/-- The extent goes from the first to the last one of some tokens. -/
def Extent.Spans (e : Extent) (ts : List Token) : Prop :=
  ∃ first last, ts.head? = some first ∧ ts.getLast? = some last ∧
    e = first.extent.through last.extent

namespace Extent.Spans

variable {e : Extent}

theorem single (t : Token) : t.extent.Spans [t] := ⟨t, t, rfl, rfl, rfl⟩

theorem append {last : Token} (h : e.Spans ts) (hlast : ts'.getLast? = some last) :
    (e.through last.extent).Spans (ts ++ ts') := by
  obtain ⟨first, _, hfirst, -, rfl⟩ := h
  refine ⟨first, last, ?_, ?_, rfl⟩
  · rw [List.head?_append, hfirst]
    rfl
  · rw [List.getLast?_append, hlast]
    rfl

end Extent.Spans

/-- The tokens of a tag: one that opens it and the parts behind it. -/
def Token.OfTag (opening : TokenKind) (ts : List Token) : Prop :=
  ∃ o parts, ts = o :: parts ∧ o.kind = opening ∧
    (∀ t ∈ parts, (Mode.tag.after t.kind).isSome) ∧ outsideTags true parts = []

/-- The tokens are character data, and a text can start with the first one. -/
structure TextRun.OfTokens (ts : List Token) (r : TextRun) : Prop where
  value : r.value = Token.joined ts
  inContent : ∀ t ∈ ts, t.kind.inContent = true
  head : ∀ t, ts.head? = some t → t.kind ≠ .interpolationEnd

/-- The tokens are the braces of the mustache and text in between. -/
structure Mustache.OfTokens (ts : List Token) (x : Mustache) : Prop where
  tokens : ∃ inside, ts = x.opening :: (inside ++ [x.closing]) ∧ inside ≠ [] ∧
    (∀ t ∈ inside, t.kind.isText = true) ∧ x.value = Token.joined inside
  opening : x.opening.kind = .interpolationStart
  closing : x.closing.kind = .interpolationEnd

namespace MarkupUnit

/-- What kind of tokens a unit is made of. -/
def OfTokens (ts : List Token) : MarkupUnit → Prop
  | startTag _ => Token.OfTag .tagOpen ts
  | endTag _ => Token.OfTag .endTagOpen ts
  | text r => r.OfTokens ts
  | mustache m => m.OfTokens ts

/-- The unit is made of the tokens, and goes from the first one to the last one. -/
structure MadeOf (ts : List Token) (u : MarkupUnit) : Prop where
  tokens : u.OfTokens ts
  extent : u.extent.Spans ts

/-- The characters that a unit stands for. -/
def characters : MarkupUnit → String
  | text r => r.value
  | mustache m => "\x7b\x7b" ++ m.value ++ "\x7d\x7d"
  | _ => ""

/-- One text starts where another one ends. -/
def Touches : MarkupUnit → MarkupUnit → Prop
  | text r, text s => r.extent.span.stop = s.extent.span.start
  | _, _ => False

end MarkupUnit

theorem TextRun.OfTokens.single (hk : tok.kind.inContent = true)
    (he : tok.kind ≠ .interpolationEnd) (e : Extent) :
    TextRun.OfTokens [tok] ⟨tok.value, e⟩ where
  value := (Token.joined_singleton tok).symm
  inContent _ ht := List.mem_singleton.1 ht ▸ hk
  head _ ht := Option.some.inj ht ▸ he

theorem TextRun.OfTokens.append {r : TextRun} (h : r.OfTokens ts) (hne : ts ≠ [])
    (hk : ∀ t ∈ ts', t.kind.inContent = true) (e : Extent) :
    TextRun.OfTokens (ts ++ ts') ⟨r.value ++ Token.joined ts', e⟩ where
  value := by rw [h.value, Token.joined_append]
  inContent t ht := (List.mem_append.1 ht).elim (h.inContent t) (hk t)
  head t ht := h.head t (by rwa [List.head?_append_of_ne_nil _ hne] at ht)

/-- A text goes on with more tokens. -/
theorem MarkupUnit.MadeOf.append {r : TextRun} {last : Token} (h : MadeOf ts (.text r))
    (hk : ∀ t ∈ ts', t.kind.inContent = true) (hlast : ts'.getLast? = some last) :
    MadeOf (ts ++ ts')
      (.text ⟨r.value ++ Token.joined ts', r.extent.through last.extent⟩) := by
  have hne : ts ≠ [] := by
    rintro rfl
    obtain ⟨first, -, hfirst, -⟩ := h.extent
    cases hfirst
  exact ⟨TextRun.OfTokens.append h.tokens hne hk _, h.extent.append hlast⟩

/-- A tag goes on with one more part. -/
theorem Token.OfTag.snoc {k : TokenKind} (h : OfTag k ts) (hopen : tagBehind false ts = true)
    (ho : k.tagBehind false = true) (hpart : (Mode.tag.after tok.kind).isSome) :
    OfTag k (ts ++ [tok]) := by
  obtain ⟨o, parts, rfl, rfl, hparts, hout⟩ := h
  have hbehind : tagBehind true parts = true := by
    rwa [tagBehind, List.foldl_cons, ho] at hopen
  refine ⟨o, parts ++ [tok], rfl, rfl, fun t ht => ?_, ?_⟩
  · rcases List.mem_append.1 ht with ht | ht
    · exact hparts t ht
    · exact List.mem_singleton.1 ht ▸ hpart
  · rw [outsideTags_append, hout, hbehind]
    rfl

/-! ## Units that share out tokens -/

/-- The tokens fall into rows, and each unit is made of one of them.  Only behind the last one a tag can
be open. -/
inductive Grouped : List Token → List MarkupUnit → Prop
  | nil : Grouped [] []
  | snoc {ts g : List Token} {us : List MarkupUnit} {u : MarkupUnit} (h : Grouped ts us)
      (hout : Token.tagBehind false ts = false) (hu : u.MadeOf g) : Grouped (ts ++ g) (us ++ [u])

/-- The last unit is made of the last tokens. -/
theorem Grouped.snoc_inv (h : Grouped ts (us ++ [u])) :
    ∃ front g, ts = front ++ g ∧ Grouped front us ∧ Token.tagBehind false front = false ∧
      u.MadeOf g := by
  generalize hus : us ++ [u] = us' at h
  cases h with
  | nil => simp at hus
  | snoc h hout hu =>
    obtain ⟨rfl, heq⟩ := List.append_inj' hus rfl
    obtain rfl := List.singleton_inj.1 heq
    exact ⟨_, _, rfl, h, hout, hu⟩

/-- No text touches the text before it. -/
def SeparateTexts (us : List MarkupUnit) : Prop := us.IsChain fun u v => ¬ u.Touches v

/-- The last unit is no text that ends at `p`. -/
def NoTextUpTo (us : List MarkupUnit) (p : Nat) : Prop :=
  ∀ r, us.getLast? = some (.text r) → r.extent.span.stop ≠ p

theorem SeparateTexts.snoc_iff : SeparateTexts (us ++ [u]) ↔
    SeparateTexts us ∧ ∀ r, u = .text r → NoTextUpTo us r.extent.span.start := by
  unfold SeparateTexts
  rw [List.isChain_append]
  constructor
  · rintro ⟨hus, -, hlast⟩
    refine ⟨hus, ?_⟩
    rintro r rfl s hs htouch
    exact hlast _ hs _ rfl htouch
  · rintro ⟨hus, htext⟩
    refine ⟨hus, .singleton u, fun v hv w hw htouch => ?_⟩
    obtain rfl := Option.some.inj hw
    cases v with
    | text s =>
      cases u with
      | text r => exact htext r rfl s hv htouch
      | startTag t | endTag t | mustache m => exact htouch
    | startTag t | endTag t | mustache m => exact htouch

/-- A text that starts where another one did is as far from the text before it. -/
theorem SeparateTexts.regrow {r r' : TextRun} (h : SeparateTexts (us ++ [.text r]))
    (hstart : r'.extent.span.start = r.extent.span.start) :
    SeparateTexts (us ++ [.text r']) := by
  rw [SeparateTexts.snoc_iff] at h ⊢
  refine ⟨h.1, fun s hs => ?_⟩
  obtain rfl := MarkupUnit.text.inj hs
  rw [hstart]
  exact h.2 r rfl

/-- A unit that is no text touches nothing. -/
theorem SeparateTexts.other (h : SeparateTexts us) (hu : ∀ r, u ≠ .text r) :
    SeparateTexts (us ++ [u]) :=
  SeparateTexts.snoc_iff.2 ⟨h, fun r hr => absurd hr (hu r)⟩

/-! ## The state of an assembler -/

/-- The units that are out, and the one that may still grow. -/
def Assembler.units (a : Assembler) : List MarkupUnit :=
  a.output.toList ++ (a.current.map OpenUnit.close).toList

/-- The assembler has made the units `us` and its own of the tokens `ts`. -/
structure Made (ts : List Token) (us : List MarkupUnit) (a : Assembler) : Prop where
  grouped : Grouped ts (us ++ a.units)
  separate : SeparateTexts (us ++ a.units)

/-- What may still grow is text, or nothing, and then the last unit is no text that ends at `p`. -/
structure Assembler.TakesText (us : List MarkupUnit) (a : Assembler) (p : Nat) : Prop where
  noTag : a.inTag = false
  idle : a.current = none → NoTextUpTo (us ++ a.output.toList) p

/-- The assembler is in content, or in a tag. -/
structure CarriesUnit (ts : List Token) (us : List MarkupUnit) (a : Assembler) (inTag : Bool) : Prop
    extends Made ts us a where
  behind : Token.tagBehind false ts = inTag
  inTag : a.inTag = inTag
  opening : a.opening = none
  inside : a.inside = #[]
  idle : a.current = none → ∀ p, NoTextUpTo (us ++ a.output.toList) p

/-- The assembler is behind double braces that are not closed, and has read up to `p`. -/
structure CarriesBraces (ts : List Token) (us : List MarkupUnit) (a : Assembler) (p : Nat) : Prop where
  braces : ∃ front o, ts = front ++ o :: a.inside.toList ∧ a.opening = some o ∧
    o.kind = .interpolationStart ∧ Made front us a ∧ Token.tagBehind false front = false ∧
    a.TakesText us o.extent.span.start ∧ (a.inside.back?.getD o).extent.span.stop = p
  inside : ∀ t ∈ a.inside, t.kind.isText = true

/-- What an assembler carries that stops in the middle of a mode. -/
def Carries (ts : List Token) (us : List MarkupUnit) (a : Assembler) : Mode → Nat → Prop
  | .content, _ => CarriesUnit ts us a false
  | .tag, _ => CarriesUnit ts us a true
  | .interpolation, p => CarriesBraces ts us a p

section
variable {a a' : Assembler} {p : Nat}

theorem Assembler.emitCurrent_output (a : Assembler) : a.emitCurrent.output.toList = a.units := by
  unfold emitCurrent units
  split
  · next u hu => simp [emit, hu]
  · next hu => simp [hu]

theorem Assembler.units_none (h : a.current = none) : a.units = a.output.toList := by
  simp [units, h]

theorem Assembler.units_some {u : OpenUnit} (h : a.current = some u) :
    a.units = a.output.toList ++ [u.close] := by
  simp [units, h]

theorem Assembler.units_congr (hcurrent : a'.current = a.current) (houtput : a'.output = a.output) :
    a'.units = a.units := by
  rw [units, units, hcurrent, houtput]

namespace Made

theorem congr (h : Made ts us a) (hu : a'.units = a.units) : Made ts us a' where
  grouped := hu ▸ h.grouped
  separate := hu ▸ h.separate

/-- A unit comes behind everything that was made. -/
theorem push (h : Made ts us a) (hout : Token.tagBehind false ts = false) (hu : u.MadeOf g)
    (hunits : a'.units = a.units ++ [u])
    (hsep : ∀ r, u = .text r → NoTextUpTo (us ++ a.units) r.extent.span.start) :
    Made (ts ++ g) us a' := by
  constructor
  · rw [hunits, ← List.append_assoc]
    exact h.grouped.snoc hout hu
  · rw [hunits, ← List.append_assoc]
    exact SeparateTexts.snoc_iff.2 ⟨h.separate, hsep⟩

/-- The unit that may still grow gets more tokens. -/
theorem grow (h : Made ts us a) {u u' : OpenUnit} (hcurrent : a.current = some u)
    (hcurrent' : a'.current = some u') (houtput : a'.output = a.output)
    (hu : ∀ front g, ts = front ++ g → Token.tagBehind false front = false → u.close.MadeOf g →
      u'.close.MadeOf (g ++ ts'))
    (hsep : SeparateTexts (us ++ a.output.toList ++ [u.close]) →
      SeparateTexts (us ++ a.output.toList ++ [u'.close])) : Made (ts ++ ts') us a' := by
  have hunits : us ++ a.units = us ++ a.output.toList ++ [u.close] := by
    rw [Assembler.units_some hcurrent, List.append_assoc]
  have hunits' : us ++ a'.units = us ++ a.output.toList ++ [u'.close] := by
    rw [Assembler.units_some hcurrent', houtput, List.append_assoc]
  obtain ⟨hgrouped, hseparate⟩ := h
  rw [hunits] at hgrouped hseparate
  obtain ⟨front, g, rfl, hfront, hout, hg⟩ := hgrouped.snoc_inv
  constructor
  · rw [hunits', List.append_assoc]
    exact hfront.snoc hout (hu front g rfl hout hg)
  · rw [hunits']
    exact hsep hseparate

/-- Text that may still grow gets more tokens. -/
theorem growText (h : Made ts us a) {r : TextRun} (hcurrent : a.current = some (.text r))
    (hk : ∀ t ∈ ts', t.kind.inContent = true) (hlast : ts'.getLast? = some tok)
    (hcurrent' : a'.current =
      some (.text ⟨r.value ++ Token.joined ts', r.extent.through tok.extent⟩))
    (houtput : a'.output = a.output) : Made (ts ++ ts') us a' :=
  h.grow hcurrent hcurrent' houtput (fun _ _ _ _ hg => hg.append hk hlast)
    fun hsep => hsep.regrow rfl

end Made

namespace CarriesUnit

/-- Fields that no unit depends on do not matter. -/
theorem congr {inTag : Bool} (h : CarriesUnit ts us a inTag) (hcurrent : a'.current = a.current)
    (houtput : a'.output = a.output) (hopening : a'.opening = a.opening)
    (hinside : a'.inside = a.inside) : CarriesUnit ts us a' inTag where
  toMade := h.toMade.congr (Assembler.units_congr hcurrent houtput)
  behind := h.behind
  inTag := by
    rw [Assembler.inTag, hcurrent]
    exact h.inTag
  opening := hopening.trans h.opening
  inside := hinside.trans h.inside
  idle hnone := by
    rw [houtput]
    exact h.idle (hcurrent ▸ hnone)

theorem takesText (h : CarriesUnit ts us a false) (p : Nat) : a.TakesText us p :=
  ⟨h.inTag, fun hc => h.idle hc p⟩

end CarriesUnit

namespace Assembler

/-- Outside tags, only text may still grow. -/
theorem TakesText.cases (h : a.TakesText us p) :
    (∃ r, a.current = some (.text r)) ∨ a.current = none := by
  have hin := h.noTag
  cases hc : a.current with
  | none => exact .inr rfl
  | some u =>
    cases u with
    | text r => exact .inl ⟨r, rfl⟩
    | startTag t | endTag t => simp [inTag, hc, OpenUnit.isTag] at hin

/-- Behind all units there is no text that ends at `p`, if the text that may still grow does not. -/
theorem TakesText.noTextUpTo (h : a.TakesText us p)
    (hp : ∀ r, a.current = some (.text r) → r.extent.span.stop ≠ p) :
    NoTextUpTo (us ++ a.units) p := by
  rcases h.cases with ⟨r, hc⟩ | hc
  · intro s hs
    rw [units_some hc, ← List.append_assoc, List.getLast?_concat] at hs
    obtain rfl := MarkupUnit.text.inj (Option.some.inj hs)
    exact hp r hc
  · rw [units_none hc]
    exact h.idle hc

variable (ho : a.opening = none)
include ho

theorem commit_output : a.commit.output.toList = a.units := by
  rw [commit_of_opening ho]
  exact a.emitCurrent_output

theorem commit_opening : a.commit.opening = none := by
  rw [commit_of_opening ho]
  exact a.emitCurrent_opening.trans ho

theorem commit_inside : a.commit.inside = a.inside := by
  rw [commit_of_opening ho]
  exact a.emitCurrent_inside

theorem text_join {r : TextRun} (hc : a.current = some (.text r))
    (hmeet : r.extent.span.stop = tok.extent.span.start) :
    a.text tok = { a with
      current := some (.text ⟨r.value ++ tok.value, r.extent.through tok.extent⟩) } := by
  unfold text
  rw [ho, hc]
  exact if_pos hmeet

theorem text_fresh
    (hp : ∀ r, a.current = some (.text r) → r.extent.span.stop ≠ tok.extent.span.start) :
    a.text tok = { a.commit with current := some (.text ⟨tok.value, tok.extent⟩) } := by
  unfold text
  rw [ho]
  cases hc : a.current with
  | none => rfl
  | some u =>
    cases u with
    | text r => exact if_neg (hp r hc)
    | startTag t | endTag t => rfl

/-- Braces directly behind the text that may still grow wait for it to grow. -/
theorem interpolationStart_join
    (hp : ∀ u, a.current = some u → ∃ r, u = .text r ∧ r.extent.span.stop = tok.extent.span.start) :
    a.interpolationStart tok = { a.keep tok with opening := some tok } := by
  unfold interpolationStart
  cases hc : a.current with
  | none => simp [keep, ho, hc]
  | some u =>
    obtain ⟨r, rfl, hmeet⟩ := hp u hc
    simp [keep, ho, hc, hmeet]

theorem interpolationStart_fresh {r : TextRun} (hc : a.current = some (.text r))
    (hmeet : r.extent.span.stop ≠ tok.extent.span.start) :
    a.interpolationStart tok = { (a.keep tok).commit with opening := some tok } := by
  unfold interpolationStart
  simp [keep, ho, hc, hmeet]

end Assembler

/-- A token of character data goes to the text that may still grow, or starts a text. -/
theorem Made.text (h : Made ts us a) (hbehind : Token.tagBehind false ts = false)
    (ho : a.opening = none) (hin : a.inside = #[]) (htext : a.TakesText us tok.extent.span.start)
    (hk : tok.kind.inContent = true)
    (he : tok.kind = .interpolationEnd →
      ∃ r, a.current = some (.text r) ∧ r.extent.span.stop = tok.extent.span.start) :
    CarriesUnit (ts ++ [tok]) us (a.text tok) false ∧
      ∃ r, (a.text tok).current = some (.text r) ∧
        r.extent.span.stop = tok.extent.span.stop := by
  have hkinds : ∀ t ∈ [tok], t.kind.inContent = true := fun t ht => List.mem_singleton.1 ht ▸ hk
  have hbehind' : Token.tagBehind false (ts ++ [tok]) = false := by
    rw [Token.tagBehind_append, hbehind, Token.tagBehind_of_inContent hkinds]
  by_cases hmeet : ∃ r, a.current = some (.text r) ∧ r.extent.span.stop = tok.extent.span.start
  · obtain ⟨r, hc, hstop⟩ := hmeet
    rw [Assembler.text_join ho hc hstop]
    have hlast : [tok].getLast? = some tok := rfl
    have hmade : Made (ts ++ [tok]) us { a with
        current := some (.text ⟨r.value ++ tok.value, r.extent.through tok.extent⟩) } :=
      h.growText hc hkinds hlast (by rw [Token.joined_singleton]) rfl
    exact ⟨⟨hmade, hbehind', rfl, ho, hin, nofun⟩, _, rfl, rfl⟩
  · have hp : ∀ r, a.current = some (.text r) → r.extent.span.stop ≠ tok.extent.span.start :=
      fun r hc hstop => hmeet ⟨r, hc, hstop⟩
    rw [Assembler.text_fresh ho hp]
    have hsingle : MarkupUnit.MadeOf [tok] (.text ⟨tok.value, tok.extent⟩) :=
      ⟨TextRun.OfTokens.single hk (fun hend => hmeet (he hend)) _, .single tok⟩
    have hmade : Made (ts ++ [tok]) us { a.commit with
        current := some (.text ⟨tok.value, tok.extent⟩) } :=
      h.push hbehind hsingle (by rw [Assembler.units_some rfl, Assembler.commit_output ho]; rfl)
        fun r hr => by
          obtain rfl := MarkupUnit.text.inj hr
          exact htext.noTextUpTo hp
    exact ⟨⟨hmade, hbehind', rfl, Assembler.commit_opening ho,
      (Assembler.commit_inside ho).trans hin, nofun⟩, _, rfl, rfl⟩

namespace CarriesUnit

theorem text (h : CarriesUnit ts us a false) (hk : tok.kind.isText = true) :
    CarriesUnit (ts ++ [tok]) us ((a.keep tok).text tok) false := by
  have hkeep : CarriesUnit ts us (a.keep tok) false := h.congr rfl rfl rfl rfl
  refine (hkeep.toMade.text h.behind h.opening h.inside (hkeep.takesText _) ?_ fun hend => ?_).1
  · rw [TokenKind.inContent, hk]
    rfl
  · rw [hend] at hk
    cases hk

/-- A tag starts. -/
theorem startTag (h : CarriesUnit ts us a false) {u : OpenUnit} (hu : u.isTag = true)
    (hmade : u.close.MadeOf [tok]) (hbehind : tok.kind.tagBehind false = true) :
    CarriesUnit (ts ++ [tok]) us (a.startTag tok u) true := by
  have ho : (a.keep tok).opening = none := h.opening
  have hunits : (a.keep tok).commit.output.toList = a.units := Assembler.commit_output ho
  refine ⟨h.toMade.push h.behind hmade ?_ fun r hr => ?_, ?_, ?_,
    Assembler.commit_opening ho, (Assembler.commit_inside ho).trans h.inside, nofun⟩
  · rw [Assembler.startTag, Assembler.units_some rfl, hunits]
  · cases u with
    | text r => simp [OpenUnit.isTag] at hu
    | startTag t | endTag t => cases hr
  · rw [Token.tagBehind_append, h.behind]
    exact hbehind
  · simp [Assembler.inTag, Assembler.startTag, hu]

/-- Double braces open. -/
theorem openBraces (h : CarriesUnit ts us a false) (hk : tok.kind = .interpolationStart) :
    CarriesBraces (ts ++ [tok]) us (a.interpolationStart tok) tok.extent.span.stop := by
  have hset : ∀ b : Assembler, us ++ b.units = us ++ a.units → b.inside = #[] →
      b.TakesText us tok.extent.span.start →
        CarriesBraces (ts ++ [tok]) us { b with opening := some tok } tok.extent.span.stop := by
    intro b hunits hin htext
    refine ⟨⟨ts, tok, by simp [hin], rfl, hk, ⟨?_, ?_⟩, h.behind, ⟨htext.noTag, htext.idle⟩, by
      simp [hin]⟩, by simp [hin]⟩
    · exact hunits ▸ h.grouped
    · exact hunits ▸ h.separate
  have ho : (a.keep tok).opening = none := h.opening
  have htext := h.takesText tok.extent.span.start
  by_cases hp : ∃ r, a.current = some (.text r) ∧ r.extent.span.stop ≠ tok.extent.span.start
  · obtain ⟨r, hc, hmeet⟩ := hp
    rw [Assembler.interpolationStart_fresh h.opening hc hmeet]
    have hunits : (a.keep tok).commit.output.toList = a.units := Assembler.commit_output ho
    have hnone := (a.keep tok).commit_current
    refine hset (a.keep tok).commit ?_ ((Assembler.commit_inside ho).trans h.inside) ⟨?_, ?_⟩
    · rw [Assembler.units_none hnone, hunits]
    · rw [Assembler.inTag, hnone]
      rfl
    · intro _
      rw [hunits]
      refine htext.noTextUpTo fun s hs => ?_
      obtain rfl := OpenUnit.text.inj (Option.some.inj (hc.symm.trans hs))
      exact hmeet
  · rw [Assembler.interpolationStart_join h.opening fun u hu => ?_]
    · exact hset (a.keep tok) rfl h.inside ⟨htext.noTag, htext.idle⟩
    · rcases htext.cases with ⟨r, hc⟩ | hc
      · obtain rfl := Option.some.inj (hc.symm.trans hu)
        exact ⟨r, rfl, Decidable.not_not.1 fun hmeet => hp ⟨r, hc, hmeet⟩⟩
      · cases hc.symm.trans hu

/-- The unit that may still grow is a tag. -/
theorem tag (h : CarriesUnit ts us a true) : ∃ u, a.current = some u ∧ u.isTag = true := by
  have hin := h.inTag
  cases hc : a.current with
  | none => simp [Assembler.inTag, hc] at hin
  | some u => exact ⟨u, rfl, by simpa [Assembler.inTag, hc] using hin⟩

end CarriesUnit

/-! ## Tags -/

/-- The assembler took one more part of the tag that is open. -/
structure Assembler.GrowsTag (a : Assembler) (tok : Token) (a' : Assembler) : Prop where
  current : ∃ u u', a.current = some u ∧ a'.current = some u' ∧ u'.isTag = true ∧
    (∀ ts, u.close.OfTokens ts → u'.close.OfTokens ts) ∧
    u'.close.extent = u.close.extent.through tok.extent
  output : a'.output = a.output
  opening : a'.opening = a.opening
  inside : a'.inside = a.inside

namespace Assembler

theorem tagPart_growsTag {u : OpenUnit} (hc : a.current = some u) (hu : u.isTag = true) :
    a.GrowsTag tok (a.tagPart tok) := by
  unfold tagPart
  rw [hc]
  dsimp only
  rw [if_pos hu]
  refine ⟨⟨u, u.extend tok, hc, rfl, ?_⟩, rfl, rfl, rfl⟩
  cases u with
  | startTag t | endTag t => exact ⟨rfl, fun _ h => h, rfl⟩
  | text r => simp [OpenUnit.isTag] at hu

theorem identifier_growsTag {u : OpenUnit} (hc : a.current = some u) (hu : u.isTag = true) :
    a.GrowsTag tok (a.identifier tok) := by
  unfold identifier
  dsimp only
  rw [show (a.keep tok).current = _ from hc]
  cases u with
  | startTag t =>
    dsimp only
    split <;> exact ⟨⟨_, _, hc, rfl, rfl, fun _ h => h, rfl⟩, rfl, rfl, rfl⟩
  | endTag t => exact ⟨⟨_, _, hc, rfl, rfl, fun _ h => h, rfl⟩, rfl, rfl, rfl⟩
  | text r => simp [OpenUnit.isTag] at hu

theorem literal_growsTag {u : OpenUnit} (hc : a.current = some u) (hu : u.isTag = true) :
    a.GrowsTag tok (a.literal tok) := by
  unfold literal
  dsimp only
  rw [show (a.keep tok).current = _ from hc]
  cases u with
  | startTag t | endTag t => exact ⟨⟨_, _, hc, rfl, rfl, fun _ h => h, rfl⟩, rfl, rfl, rfl⟩
  | text r => simp [OpenUnit.isTag] at hu

/-- The end of a tag is its last part. -/
theorem tagClose_growsTag (a : Assembler) {u : OpenUnit} (hc : a.current = some u) (hu : u.isTag = true)
    (selfClosing : Bool) :
    ∃ a', a.GrowsTag tok a' ∧ a.tagClose tok selfClosing = a'.commit := by
  refine ⟨_, ?_, rfl⟩
  rw [show (a.keep tok).current = _ from hc]
  cases u with
  | startTag t => exact ⟨⟨_, _, hc, rfl, rfl, fun _ h => h, rfl⟩, rfl, rfl, rfl⟩
  | endTag t =>
    dsimp only
    split <;> exact ⟨⟨_, _, hc, rfl, rfl, fun _ h => h, rfl⟩, rfl, rfl, rfl⟩
  | text r => simp [OpenUnit.isTag] at hu

end Assembler

/-- Tokens of a tag that is open stay so with one more part. -/
theorem OpenUnit.ofTokens_snoc {u : OpenUnit} (hu : u.isTag = true) (h : u.close.OfTokens g)
    (hopen : Token.tagBehind false g = true) (hpart : (Mode.tag.after tok.kind).isSome) :
    u.close.OfTokens (g ++ [tok]) := by
  cases u with
  | startTag t | endTag t => exact Token.OfTag.snoc h hopen rfl hpart
  | text r => simp [isTag] at hu

namespace CarriesUnit

theorem growTag (h : CarriesUnit ts us a true) (hg : a.GrowsTag tok a')
    (hpart : (Mode.tag.after tok.kind).isSome) : Made (ts ++ [tok]) us a' := by
  obtain ⟨u, u', hc, hc', htag', hsame, hextent⟩ := hg.current
  obtain ⟨v, hv, htag⟩ := h.tag
  obtain rfl := Option.some.inj (hc.symm.trans hv)
  refine h.toMade.grow hc hc' hg.output (fun front g hts hfront hu => ⟨?_, ?_⟩) fun hsep => ?_
  · have hopen : Token.tagBehind false g = true := by
      have hbehind := h.behind
      rwa [hts, Token.tagBehind_append, hfront] at hbehind
    cases u with
    | text r => simp [OpenUnit.isTag] at htag
    | startTag t | endTag t =>
      have hsnoc := OpenUnit.ofTokens_snoc (u := u') htag' (hsame _ hu.tokens) hopen hpart
      exact hsnoc
  · rw [hextent]
    exact hu.extent.append rfl
  · refine SeparateTexts.other (SeparateTexts.snoc_iff.1 hsep).1 fun r hr => ?_
    cases u' with
    | text r => simp [OpenUnit.isTag] at htag'
    | startTag t | endTag t => cases hr

/-- The tag goes on. -/
theorem tagGoesOn (h : CarriesUnit ts us a true) (hg : a.GrowsTag tok a')
    (hpart : Mode.tag.after tok.kind = some .tag) : CarriesUnit (ts ++ [tok]) us a' true := by
  obtain ⟨u, u', -, hc', htag', -⟩ := hg.current
  refine ⟨h.growTag hg (hpart ▸ rfl), ?_, ?_, hg.opening.trans h.opening,
    hg.inside.trans h.inside, fun hnone => ?_⟩
  · rw [Token.tagBehind_append, h.behind]
    exact TokenKind.tagBehind_of_after hpart
  · simp [Assembler.inTag, hc', htag']
  · cases hnone.symm.trans hc'

/-- The tag ends. -/
theorem tagEnds (h : CarriesUnit ts us a true) (hg : a.GrowsTag tok a')
    (hpart : Mode.tag.after tok.kind = some .content) :
    CarriesUnit (ts ++ [tok]) us a'.commit false := by
  obtain ⟨u, u', -, hc', htag', -⟩ := hg.current
  have ho : a'.opening = none := hg.opening.trans h.opening
  have hnone := a'.commit_current
  have hout := Assembler.commit_output ho
  refine ⟨(h.growTag hg (hpart ▸ rfl)).congr ?_, ?_, ?_, Assembler.commit_opening ho,
    (Assembler.commit_inside ho).trans (hg.inside.trans h.inside), fun _ p r hr => ?_⟩
  · rw [Assembler.units_none hnone, hout]
  · rw [Token.tagBehind_append, h.behind]
    exact TokenKind.tagBehind_of_after hpart
  · rw [Assembler.inTag, hnone]
    rfl
  · rw [hout, Assembler.units_some hc', ← List.append_assoc, List.getLast?_concat] at hr
    cases u' with
    | text r => simp [OpenUnit.isTag] at htag'
    | startTag t | endTag t => cases hr

end CarriesUnit

/-! ## Mustaches -/

namespace CarriesBraces

/-- Text behind the braces. -/
theorem text (h : CarriesBraces ts us a p) (hk : tok.kind.isText = true) :
    CarriesBraces (ts ++ [tok]) us ((a.keep tok).text tok) tok.extent.span.stop := by
  obtain ⟨front, o, rfl, ho, hko, hmade, hout, htext, -⟩ := h.braces
  have heq : (a.keep tok).text tok = { a.keep tok with inside := a.inside.push tok } :=
    if_pos (by simp [Assembler.keep, ho])
  rw [heq]
  refine ⟨⟨front, o, by simp, ho, hko, hmade.congr rfl, hout, ⟨htext.noTag, htext.idle⟩,
    by simp⟩, fun t ht => ?_⟩
  rcases Array.mem_push.1 ht with ht | rfl
  · exact h.inside t ht
  · exact hk

theorem interpolationEnd_empty {o : Token} (ho : a.opening = some o) (hin : a.inside = #[]) :
    a.interpolationEnd tok = ({ a.keep tok with opening := none }.text o).text tok := by
  simp [Assembler.interpolationEnd, Assembler.keep, ho, hin]

theorem interpolationEnd_filled {o : Token} (ho : a.opening = some o) (hin : a.inside ≠ #[]) :
    a.interpolationEnd tok = ({ a.keep tok with opening := none, inside := #[] }.commit).emit
      (.mustache ⟨Assembler.joinValues a.inside, o, tok, o.extent.through tok.extent⟩) := by
  simp [Assembler.interpolationEnd, Assembler.keep, ho, hin]

/-- Double braces close. -/
theorem close (h : CarriesBraces ts us a p) (hk : tok.kind = .interpolationEnd)
    (hp : tok.extent.span.start = p) :
    CarriesUnit (ts ++ [tok]) us (a.interpolationEnd tok) false := by
  obtain ⟨front, o, rfl, ho, hko, hmade, hout, htext, hlast⟩ := h.braces
  have hopening : o.kind.inContent = true := by simp [TokenKind.inContent, hko]
  have hclosing : tok.kind.inContent = true := by simp [TokenKind.inContent, hk]
  by_cases hin : a.inside = #[]
  · -- braces with nothing in between are text
    rw [interpolationEnd_empty ho hin, hin]
    rw [hin] at hlast
    have hopened : Made front us { a.keep tok with opening := none } := hmade.congr rfl
    obtain ⟨hfirst, r, hr, hstop⟩ := hopened.text hout rfl hin ⟨htext.noTag, htext.idle⟩ hopening
      fun hend => by simp [hko] at hend
    exact (hfirst.toMade.text hfirst.behind hfirst.opening hfirst.inside (hfirst.takesText _) hclosing
      fun _ => ⟨r, hr, by rw [hstop, hp]; exact hlast⟩).1
  · rw [interpolationEnd_filled ho hin]
    have hidle : ∀ c : Assembler, c.units = a.units → c.opening = none → c.inside = #[] →
        c.commit.output.toList = a.units ∧ c.commit.opening = none ∧ c.commit.inside = #[] ∧
          c.commit.current = none := fun c hunits ho hin =>
      ⟨(Assembler.commit_output ho).trans hunits, Assembler.commit_opening ho,
        (Assembler.commit_inside ho).trans hin, c.commit_current⟩
    obtain ⟨hunits, hclear, hempty, hnone⟩ :=
      hidle { a.keep tok with opening := none, inside := #[] } rfl rfl rfl
    generalize ({ a.keep tok with opening := none, inside := #[] } : Assembler).commit = b at *
    have hne : a.inside.toList ≠ [] := by simpa using hin
    have hu : MarkupUnit.MadeOf (o :: (a.inside.toList ++ [tok]))
        (.mustache ⟨Assembler.joinValues a.inside, o, tok, o.extent.through tok.extent⟩) :=
      ⟨⟨⟨a.inside.toList, rfl, hne, fun t ht => h.inside t (by simpa using ht),
        Assembler.joinValues_eq _⟩, hko, hk⟩, o, tok, rfl, by
          rw [← List.cons_append, List.getLast?_concat], rfl⟩
    rw [List.append_assoc, List.cons_append]
    refine ⟨hmade.push hout hu ?_ fun r hr => MarkupUnit.noConfusion hr, ?_, ?_, hclear, hempty,
      fun _ p r hr => ?_⟩
    · rw [Assembler.units_none (a := b.emit _) hnone, Assembler.emit, Array.toList_push, hunits]
    · have hinside : ∀ t ∈ o :: (a.inside.toList ++ [tok]), t.kind.inContent = true := by
        intro t ht
        rcases List.mem_cons.1 ht with rfl | ht
        · exact hopening
        · rcases List.mem_append.1 ht with ht | ht
          · rw [TokenKind.inContent, h.inside t (by simpa using ht)]
            rfl
          · exact List.mem_singleton.1 ht ▸ hclosing
      rw [Token.tagBehind_append, hout, Token.tagBehind_of_inContent hinside]
    · simp [Assembler.inTag, Assembler.emit, hnone]
    · rw [Assembler.emit, Array.toList_push, ← List.append_assoc, List.getLast?_concat] at hr
      cases hr

/-- Braces that are not closed are text, with all that follows them. -/
theorem flush (h : CarriesBraces ts us a p) :
    Made ts us a.flushInterpolation ∧ a.flushInterpolation.opening = none ∧
      ∃ o front g r, ts = front ++ o :: a.inside.toList ∧ o.kind = .interpolationStart ∧
        a.flushInterpolation.current = some (.text r) ∧
        MarkupUnit.MadeOf (g ++ o :: a.inside.toList) (.text r) := by
  obtain ⟨front, o, rfl, ho, hko, hmade, hout, htext, hlast⟩ := h.braces
  have hkinds : ∀ t ∈ o :: a.inside.toList, t.kind.inContent = true := by
    intro t ht
    rcases List.mem_cons.1 ht with rfl | ht
    · simp [TokenKind.inContent, hko]
    · rw [TokenKind.inContent, h.inside t (by simpa using ht)]
      rfl
  have hback : (o :: a.inside.toList).getLast? = some (a.inside.back?.getD o) := by
    rw [List.getLast?_cons, Array.getLast?_toList]
  have hjoined : o.value ++ Assembler.joinValues a.inside = Token.joined (o :: a.inside.toList) := by
    rw [Assembler.joinValues_eq, Token.joined_cons]
  rcases htext.cases with ⟨r, hc⟩ | hc
  · have hflush : a.flushInterpolation = { a with
        opening := none
        inside := #[]
        current := some (.text ⟨r.value ++ Token.joined (o :: a.inside.toList),
          r.extent.through (a.inside.back?.getD o).extent⟩) } := by
      simp [Assembler.flushInterpolation, ho, hc, ← hjoined]
    have hgrouped := hmade.grouped
    rw [Assembler.units_some hc, ← List.append_assoc] at hgrouped
    obtain ⟨-, g, -, -, -, hg⟩ := hgrouped.snoc_inv
    rw [hflush]
    exact ⟨hmade.growText hc hkinds hback rfl rfl, rfl, o, front, g, _, rfl, hko, rfl,
      hg.append hkinds hback⟩
  · have hflush : a.flushInterpolation = { a with
        opening := none
        inside := #[]
        current := some (.text ⟨Token.joined (o :: a.inside.toList),
          o.extent.through (a.inside.back?.getD o).extent⟩) } := by
      simp [Assembler.flushInterpolation, Assembler.emitCurrent, ho, hc, ← hjoined]
    have hu : MarkupUnit.MadeOf (o :: a.inside.toList)
        (.text ⟨Token.joined (o :: a.inside.toList),
          o.extent.through (a.inside.back?.getD o).extent⟩) :=
      ⟨⟨rfl, hkinds, fun t ht => by simp [← Option.some.inj ht, hko]⟩, o, _, rfl, hback, rfl⟩
    rw [hflush]
    refine ⟨hmade.push hout hu ?_ fun r hr => ?_, rfl, o, front, [], _, rfl, hko, rfl, hu⟩
    · rw [Assembler.units_some rfl, Assembler.units_none hc]
      rfl
    · obtain rfl := MarkupUnit.text.inj hr
      exact htext.noTextUpTo fun s hs => by rw [hc] at hs; cases hs

end CarriesBraces

namespace Carries

variable {m m' : Mode}

/-- A token that can come next is taken. -/
theorem process (h : Carries ts us a m p) (hm : m.after tok.kind = some m')
    (hp : m = .interpolation → tok.extent.span.start = p) :
    Carries (ts ++ [tok].filter fun t => !t.kind.isComment) us (a.process tok) m'
      tok.extent.span.stop := by
  unfold Assembler.process
  cases m with
  | content =>
    have hc : CarriesUnit ts us a false := h
    cases hk : tok.kind <;> rw [hk] at hm <;> simp only [Mode.after, reduceCtorEq] at hm
    all_goals obtain rfl := Option.some.inj hm
    all_goals simp only [List.filter, hk, TokenKind.isComment, Bool.not_false, Bool.not_true,
      List.append_nil]
    case bogusComment | comment => exact hc.congr rfl rfl rfl rfl
    case tagOpen =>
      exact hc.startTag rfl ⟨⟨tok, [], rfl, hk, List.forall_mem_nil _, rfl⟩, .single tok⟩ (hk ▸ rfl)
    case endTagOpen =>
      exact hc.startTag rfl ⟨⟨tok, [], rfl, hk, List.forall_mem_nil _, rfl⟩, .single tok⟩ (hk ▸ rfl)
    case interpolationStart => exact hc.openBraces hk
    case whitespace =>
      rw [hc.inTag]
      exact hc.text (hk ▸ rfl)
    all_goals exact hc.text (hk ▸ rfl)
  | tag =>
    have hc : CarriesUnit ts us a true := h
    obtain ⟨u, hu, htag⟩ := hc.tag
    have hends : ∀ selfClosing, Mode.tag.after tok.kind = some .content →
        CarriesUnit (ts ++ [tok]) us (a.tagClose tok selfClosing) false := by
      intro selfClosing hpart
      obtain ⟨a', hg, heq⟩ := a.tagClose_growsTag hu htag selfClosing
      rw [heq]
      exact hc.tagEnds hg hpart
    cases hk : tok.kind <;> rw [hk] at hm <;> simp only [Mode.after, reduceCtorEq] at hm
    all_goals obtain rfl := Option.some.inj hm
    all_goals simp only [List.filter, hk, TokenKind.isComment, Bool.not_false]
    case association =>
      exact hc.tagGoesOn (Assembler.tagPart_growsTag hu htag) (hk ▸ rfl)
    case identifier =>
      exact hc.tagGoesOn (Assembler.identifier_growsTag hu htag) (hk ▸ rfl)
    case literal =>
      exact hc.tagGoesOn (Assembler.literal_growsTag hu htag) (hk ▸ rfl)
    case whitespace =>
      rw [hc.inTag]
      exact hc.tagGoesOn (Assembler.tagPart_growsTag hu htag) (hk ▸ rfl)
    case tagClose => exact hends false (hk ▸ rfl)
    case selfClosingTagClose => exact hends true (hk ▸ rfl)
  | interpolation =>
    have hc : CarriesBraces ts us a p := h
    cases hk : tok.kind <;> rw [hk] at hm <;> simp only [Mode.after, reduceCtorEq] at hm
    all_goals obtain rfl := Option.some.inj hm
    all_goals simp only [List.filter, hk, TokenKind.isComment, Bool.not_false]
    case interpolationEnd => exact hc.close hk (hp rfl)
    case text => exact hc.text (hk ▸ rfl)
    case whitespace =>
      obtain ⟨_, _, -, -, -, -, -, htext, -⟩ := hc.braces
      rw [htext.noTag]
      exact hc.text (hk ▸ rfl)

/-- Units that are out are taken. -/
theorem takeOutput (h : Carries ts us a m p) :
    Carries ts (us ++ a.output.toList) { a with output := #[] } m p := by
  have hunits : us ++ a.output.toList ++ ({ a with output := #[] } : Assembler).units =
      us ++ a.units := by
    simp [Assembler.units]
  have hmade : ∀ {ts : List Token}, Made ts us a →
      Made ts (us ++ a.output.toList) { a with output := #[] } := fun h =>
    ⟨hunits ▸ h.grouped, hunits ▸ h.separate⟩
  have hunit : ∀ {inTag : Bool}, CarriesUnit ts us a inTag →
      CarriesUnit ts (us ++ a.output.toList) { a with output := #[] } inTag := fun h =>
    { hmade h.toMade with
      behind := h.behind
      inTag := h.inTag
      opening := h.opening
      inside := h.inside
      idle := by simpa using h.idle }
  cases m with
  | content | tag => exact hunit h
  | interpolation =>
    obtain ⟨⟨front, o, hts, ho, hko, hm, hout, htext, hlast⟩, hinside⟩ := h
    exact ⟨⟨front, o, hts, ho, hko, hmade hm, hout, ⟨htext.noTag, by simpa using htext.idle⟩,
      hlast⟩, hinside⟩

end Carries
end

end TemplateSyntax
