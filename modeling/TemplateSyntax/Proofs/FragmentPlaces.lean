import Mathlib.Data.List.TakeWhile
import TemplateSyntax.Proofs.FragmentMove
import TemplateSyntax.Proofs.ScriptSpans

/-! # The spans that are read of a fragment

What reads scripts may report any places.  `Yields` is how the spans of an embedded expression come
about: each is that of a range of the text, or was reported for a wrapped part of the text and is
moved into the part, or goes over others.  A fragment that cannot be read has its fault at an index
of the text. -/

namespace TemplateSyntax

open Text (byteLength Between)

/-! ## The spans of embedded expressions -/

/-- The spans of a filter. -/
def Filter.spans (f : Filter) : List Span :=
  f.nameSpan :: f.span :: f.arguments.map fun a => a.expression.span

/-- The spans of an expression. -/
def Expression.spans : Expression → List Span
  | plain e => [e.span]
  | iteration left right _ leftSpan span => leftSpan :: span :: right.span :: left.map Shape.span
  | handler body span => span :: body.map Shape.span
  | parameters params span => span :: params.map Shape.span
  | filtered head filters span => span :: head.span :: filters.flatMap Filter.spans

/-- The spans of an expression, if there is one, and of references. -/
def spansOf (e : Option Expression) (references : List Reference) : List Span :=
  (e.map Expression.spans).getD [] ++ references.map Reference.span

/-- The spans of what was read, those of the variables among them. -/
def Embedded.spans (e : Embedded) : List Span :=
  spansOf e.expression e.references.toList ++ e.bindings.toList.map Variable.span

/-! ## Where spans come from -/

/-- `g` is a part of the text of `f` at its place. -/
structure Fragment.PartOf (g f : Fragment) : Prop where
  lang : g.lang = f.lang
  reader : g.reader = f.reader
  place : ∃ start : Nat, Between f.code start g.code (start + byteLength g.code) ∧
    g.map = f.map.shift start

/-- A span in the answer of the reader to the wrapped text. -/
def Wrapped.Reports (w : Wrapped) (p : Span) : Prop :=
  ∃ body, w.fragment.reader w.fragment.lang (w.wrapping.wrap w.fragment.code) = .ok body ∧
    p ∈ Script.stmtsSpans body

/-- The span `s` comes out of the fragment, and is made of the spans that were reported. -/
inductive Fragment.Yields (f : Fragment) : Span → List Span → Prop
  | text {i j : Nat} (hij : i ≤ j) (hj : j ≤ byteLength f.code) : Yields f (f.map.span i j) []
  | moved {w : Wrapped} {p : Span} (hw : w.fragment.PartOf f) (hp : w.Reports p) :
    Yields f (p.map w.host) [p]
  | cover {s t : Span} {ps qs : List Span} (hs : Yields f s ps) (ht : Yields f t qs) :
    Yields f (s.cover t) (ps ++ qs)

/-- The span comes out of the fragment. -/
def Fragment.Has (f : Fragment) (s : Span) : Prop := ∃ ps, f.Yields s ps

/-- Each of the spans comes out of the fragment. -/
def Fragment.HasAll (f : Fragment) (ps : List Span) : Prop := ∀ p ∈ ps, f.Has p

/-- What was read of a fragment has the property `P`, or the fault is at an index of the text. -/
def Fragment.Sound (f : Fragment) {α : Type} (P : α → Prop) : Except ReadFailure α → Prop
  | .ok a => P a
  | .error x => ∃ i ≤ byteLength f.code, x.offset = f.map.offset i

variable {f g h : Fragment} {w : Wrapped} {s : Span}

/-- An index of a wrapped text is taken for the nearest one of the fragment. -/
theorem Wrapped.host_eq (w : Wrapped) (i : Nat) :
    w.host i = w.fragment.map.offset (min (max i w.lo) w.hi - w.lo) := by
  unfold host
  have hle : w.lo ≤ min (max i w.lo) w.hi := by
    unfold hi
    omega
  exact OffsetMap.offset_shift _ (by omega)

namespace Fragment

theorem PartOf.refl (f : Fragment) : f.PartOf f where
  lang := rfl
  reader := rfl
  place := by
    refine ⟨0, ⟨rfl, [], [], by simp, rfl⟩, ?_⟩
    rw [OffsetMap.shift, Int.natCast_zero, Int.add_zero]

theorem PartOf.trans (hg : g.PartOf f) (hh : h.PartOf g) : h.PartOf f where
  lang := hh.lang.trans hg.lang
  reader := hh.reader.trans hg.reader
  place := by
    obtain ⟨start, hin, hmap⟩ := hg.place
    obtain ⟨start', hin', hmap'⟩ := hh.place
    refine ⟨start + start', ?_, ?_⟩
    · rw [Nat.add_assoc]
      exact hin.inside hin'
    · rw [hmap', hmap, OffsetMap.shift_shift, Int.natCast_add]

theorem partOf_part {start : Nat} {code : List Char}
    (hin : Between f.code start code (start + byteLength code)) : (f.part start code).PartOf f where
  lang := rfl
  reader := rfl
  place := ⟨start, hin, rfl⟩

/-- The indices of a part are indices of the text. -/
theorem PartOf.offset (hg : g.PartOf f) : ∃ start, start + byteLength g.code ≤ byteLength f.code ∧
    ∀ i, g.map.offset i = f.map.offset (start + i) := by
  obtain ⟨start, hin, hmap⟩ := hg.place
  refine ⟨start, hin.le_size, fun i => ?_⟩
  rw [hmap]
  exact OffsetMap.offset_shift _ (by omega)

/-- The host offset of an index of a wrapped part is that of an index of the text. -/
theorem PartOf.host (hw : w.fragment.PartOf f) (i : Nat) :
    ∃ j ≤ byteLength f.code, w.host i = f.map.offset j := by
  obtain ⟨start, hle, hoffset⟩ := hw.offset
  rw [w.host_eq, hoffset]
  refine ⟨_, ?_, rfl⟩
  have : min (max i w.lo) w.hi ≤ w.lo + byteLength w.fragment.code := Nat.min_le_right _ _
  omega

namespace Has

/-- What comes out of a part comes out of the fragment. -/
theorem ofPart (hg : g.PartOf f) (hs : g.Has s) : f.Has s := by
  obtain ⟨ps, hs⟩ := hs
  refine ⟨ps, ?_⟩
  induction hs with
  | @text i j hij hj =>
    obtain ⟨start, hle, hoffset⟩ := hg.offset
    have hspan : g.map.span i j = f.map.span (start + i) (start + j) := by
      rw [OffsetMap.span, hoffset, hoffset]
      rfl
    rw [hspan]
    exact .text (by omega) (by omega)
  | moved hw hp => exact .moved (hg.trans hw) hp
  | cover _ _ ihs iht => exact .cover ihs iht

theorem text {i j : Nat} (hij : i ≤ j) (hj : j ≤ byteLength f.code) : f.Has (f.map.span i j) :=
  ⟨[], .text hij hj⟩

theorem moved (hw : w.fragment.PartOf f) (hp : w.Reports s) : f.Has (s.map w.host) :=
  ⟨[s], .moved hw hp⟩

/-- A span that comes out of the fragment starts at the offset of an index of the text. -/
theorem start (hs : f.Has s) : ∃ i ≤ byteLength f.code, s.start = f.map.offset i := by
  obtain ⟨ps, hs⟩ := hs
  induction hs with
  | @text i j hij hj => exact ⟨i, by omega, rfl⟩
  | @moved w p hw _ => exact hw.host p.start
  | @cover s t _ _ _ _ ihs iht =>
    have hstart : (s.cover t).start = min s.start t.start := rfl
    rcases Nat.le_total s.start t.start with hle | hle
    · rwa [hstart, Nat.min_eq_left hle]
    · rwa [hstart, Nat.min_eq_right hle]

end Has

/-- A text that is not blank starts, without its blanks, before it ends. -/
theorem trimStart_le_trimStop (hf : f.isBlank = false) : f.trimStart ≤ f.trimStop := by
  unfold isBlank Text.isBlank at hf
  obtain ⟨c, hc, hnot⟩ := List.all_eq_false.1 hf
  obtain ⟨x, rest, hx⟩ : ∃ x rest, Text.trimStart f.code = x :: rest := by
    cases hdrop : Text.trimStart f.code with
    | nil =>
      have := List.dropWhile_eq_nil_iff.1 hdrop c hc
      exact absurd this hnot
    | cons x rest => exact ⟨x, rest, rfl⟩
  have hfirst : Unicode.isWhiteSpace x = false := by
    have hne : Text.trimStart f.code ≠ [] := by simp [hx]
    have := List.head_dropWhile_not Unicode.isWhiteSpace hne
    simpa [show f.code.dropWhile Unicode.isWhiteSpace = x :: rest from hx] using this
  have hcode : f.code = f.code.takeWhile Unicode.isWhiteSpace ++ x :: rest := by
    rw [← hx]
    exact (List.takeWhile_append_dropWhile ..).symm
  -- what is taken off the end stops at `x`
  have hend : byteLength (f.code.takeWhile Unicode.isWhiteSpace) ≤
      byteLength (Text.trimEnd f.code) := by
    have hdrop : f.code.reverse.dropWhile Unicode.isWhiteSpace =
        (rest.reverse ++ [x]).dropWhile Unicode.isWhiteSpace ++
          (f.code.takeWhile Unicode.isWhiteSpace).reverse := by
      conv => lhs; rw [hcode]
      rw [List.reverse_append, List.reverse_cons, List.dropWhile_append]
      have hne : (rest.reverse ++ [x]).dropWhile Unicode.isWhiteSpace ≠ [] := by
        intro hnil
        have := List.dropWhile_eq_nil_iff.1 hnil x (by simp)
        simp [hfirst] at this
      rw [if_neg (by simpa [List.isEmpty_iff] using hne)]
    unfold Text.trimEnd
    rw [hdrop, Text.byteLength_reverse, Text.byteLength_append, Text.byteLength_reverse]
    exact Nat.le_add_left _ _
  unfold trimStart trimStop
  have := congrArg byteLength hcode
  rw [Text.byteLength_append, ← hx] at this
  omega

theorem has_trimmedSpan (hf : f.isBlank = false) : f.Has f.trimmedSpan :=
  .text (trimStart_le_trimStop hf) f.trimStop_le

/-! ## Steps of reading -/

namespace Sound

variable {α β : Type} {P : α → Prop} {Q : β → Prop} {x : Except ReadFailure α}

theorem failure {i : Nat} (hi : i ≤ byteLength f.code) (fault : ExpressionFault) :
    f.Sound P (throw (f.failure i fault)) :=
  ⟨i, hi, rfl⟩

theorem start (hs : f.Has s) (fault : ExpressionFault) : f.Sound P (throw ⟨fault, s.start⟩) :=
  hs.start

theorem bind (hx : f.Sound P x) {k : α → Except ReadFailure β} (hk : ∀ a, P a → f.Sound Q (k a)) :
    f.Sound Q (x >>= k) := by
  cases x with
  | error e => exact hx
  | ok a => exact hk a hx

theorem mono {P' : α → Prop} (hx : f.Sound P x) (hP : ∀ a, P a → P' a) : f.Sound P' x := by
  cases x with
  | error e => exact hx
  | ok a => exact hP a hx

/-- A fault in a part is a fault in the fragment. -/
theorem ofPart (hg : g.PartOf f) (hx : g.Sound P x) : f.Sound P x := by
  cases x with
  | ok a => exact hx
  | error e =>
    obtain ⟨i, hi, hoffset⟩ := hx
    obtain ⟨start, hle, hmap⟩ := hg.offset
    exact ⟨start + i, by omega, hoffset.trans (hmap i)⟩

/-- What the reader answers is moved into the fragment. -/
theorem parse (hw : w.fragment.PartOf f) :
    f.Sound (fun body => f.HasAll (Script.stmtsSpans body)) w.parse := by
  unfold Wrapped.parse
  split
  · next body hbody =>
    intro p hp
    rw [Script.stmtsSpans_map] at hp
    obtain ⟨q, hq, rfl⟩ := List.mem_map.1 hp
    exact .moved hw ⟨body, hbody, hq⟩
  · next i _ => exact hw.host i

end Sound

/-! ## What is taken from a wrapped text -/

theorem wrappedArguments?_spans {body : List Script.Stmt} {arguments : List Script.Arg}
    (ha : wrappedArguments? body = some arguments) {p : Span}
    (hp : p ∈ Script.argsSpans arguments) : p ∈ Script.stmtsSpans body := by
  unfold wrappedArguments? at ha
  split at ha
  · obtain rfl := Option.some.inj ha
    simp [Script.stmtsSpans, Script.Stmt.spans, Script.Expr.spans, hp]
  · simp at ha

theorem wrappedFunction?_spans {body : List Script.Stmt} {x : Script.Func}
    (hx : wrappedFunction? body = some x) {p : Span} (hp : p ∈ x.spans) :
    p ∈ Script.stmtsSpans body := by
  unfold wrappedFunction? at hx
  split at hx
  · obtain rfl := Option.some.inj hx
    simp [Script.stmtsSpans, Script.Stmt.spans, Script.Expr.spans, hp]
  · simp at hx

theorem wrappedAliases_spans {body : List Script.Stmt} {pats : List Script.Pat}
    (hpats : wrappedAliases body = .elements pats) {p : Span}
    (hp : p ∈ Script.patsSpans pats) : p ∈ Script.stmtsSpans body := by
  unfold wrappedAliases at hpats
  split at hpats
  · split at hpats
    · obtain rfl := WrappedAliases.elements.inj hpats
      simp [Script.stmtsSpans, Script.Stmt.spans, Script.ForHead.spans, Script.declaratorsSpans,
        Script.Declarator.spans, Script.Pat.spans, hp]
    · simp at hpats
  · simp at hpats

end Fragment

namespace Script

theorem Expr.span_mem (e : Expr) : e.span ∈ e.spans := by
  cases e <;> simp [Expr.span, Expr.spans]

theorem Stmt.span_mem (x : Stmt) : x.span ∈ x.spans := by
  cases x <;> simp [Stmt.span, Stmt.spans]

/-- A pattern that has a kind is at its span. -/
theorem Pat.span_mem {p : Pat} (hp : p.kind?.isSome = true) : p.span ∈ p.spans := by
  cases p with
  | expr _ | hole => simp [Pat.kind?] at hp
  | _ => simp [Pat.span, Pat.spans]

theorem mem_stmtsSpans {xs : List Stmt} {x : Stmt} (hx : x ∈ xs) {p : Span} (hp : p ∈ x.spans) :
    p ∈ stmtsSpans xs := by
  induction xs with
  | nil => simp at hx
  | cons y ys ih =>
    rw [stmtsSpans, List.mem_append]
    rcases List.mem_cons.1 hx with rfl | hx
    · exact .inl hp
    · exact .inr (ih hx)

theorem mem_patsSpans {ps : List Pat} {x : Pat} (hx : x ∈ ps) {p : Span} (hp : p ∈ x.spans) :
    p ∈ patsSpans ps := by
  induction ps with
  | nil => simp at hx
  | cons y ys ih =>
    rw [patsSpans, List.mem_append]
    rcases List.mem_cons.1 hx with rfl | hx
    · exact .inl hp
    · exact .inr (ih hx)

theorem mem_argsSpans {as : List Arg} {x : Arg} (hx : x ∈ as) {p : Span} (hp : p ∈ x.spans) :
    p ∈ argsSpans as := by
  induction as with
  | nil => simp at hx
  | cons y ys ih =>
    rw [argsSpans, List.mem_append]
    rcases List.mem_cons.1 hx with rfl | hx
    · exact .inl hp
    · exact .inr (ih hx)

theorem exists_of_mem_argsSpans {as : List Arg} {p : Span} (hp : p ∈ argsSpans as) :
    ∃ a ∈ as, p ∈ a.spans := by
  induction as with
  | nil => simp [argsSpans] at hp
  | cons a as ih =>
    rw [argsSpans, List.mem_append] at hp
    rcases hp with hp | hp
    · exact ⟨a, by simp, hp⟩
    · obtain ⟨b, hb, hpb⟩ := ih hp
      exact ⟨b, by simp [hb], hpb⟩

/-- Patterns that are left out take their spans with them. -/
theorem patsSpans_filter {ps : List Pat} {keep : Pat → Bool} {p : Span}
    (hp : p ∈ patsSpans (ps.filter keep)) : p ∈ patsSpans ps := by
  induction ps with
  | nil => exact hp
  | cons y ys ih =>
    rw [patsSpans, List.mem_append]
    rw [List.filter_cons] at hp
    split at hp
    · rw [patsSpans, List.mem_append] at hp
      exact hp.imp id ih
    · exact .inr (ih hp)

end Script

/-! ## What is made of a script -/

namespace Fragment.HasAll

open Script

theorem ofPart {ps : List Span} (hg : g.PartOf f) (h : g.HasAll ps) : f.HasAll ps :=
  fun p hp => .ofPart hg (h p hp)

theorem expr {e : Expr} (h : f.HasAll e.spans) : f.Has e.span := h _ e.span_mem

theorem references {uses : List Use} (h : ∀ u ∈ uses, f.Has u.id.span) :
    f.HasAll ((uses.map Use.reference).map Reference.span) := by
  intro s hs
  simp only [List.map_map, List.mem_map, Function.comp] at hs
  obtain ⟨u, hu, rfl⟩ := hs
  exact h u hu

theorem stmts {body : List Stmt} (h : f.HasAll (stmtsSpans body)) :
    f.HasAll ((body.map Stmt.shape).map Shape.span) := by
  intro s hs
  simp only [List.map_map, List.mem_map, Function.comp] at hs
  obtain ⟨x, hx, rfl⟩ := hs
  exact h _ (mem_stmtsSpans hx x.span_mem)

theorem pats {pats : List Pat} (h : f.HasAll (patsSpans pats)) :
    f.HasAll ((pats.filterMap Pat.shape?).map Shape.span) := by
  intro s hs
  obtain ⟨x, hx, rfl⟩ := List.mem_map.1 hs
  obtain ⟨p, hmem, hpx⟩ := List.mem_filterMap.1 hx
  obtain ⟨kind, hkind, rfl⟩ := Option.map_eq_some_iff.1 hpx
  refine h _ (mem_patsSpans hmem (Pat.span_mem ?_))
  rw [hkind]
  rfl

theorem declaredVariables {pats : List Pat} (h : f.HasAll (patsSpans pats)) (kind : VariableKind) :
    f.HasAll ((declaredVariables kind pats).map Variable.span) := by
  intro s hs
  simp only [Script.declaredVariables, List.map_map, List.mem_map, Function.comp] at hs
  obtain ⟨id, hid, rfl⟩ := hs
  exact h _ (boundByPats_span hid)

end Fragment.HasAll

/-! ## Readers -/

namespace Fragment

/-- The spans of what was read of the fragment come out of it. -/
def Gives (f : Fragment) (e : Embedded) : Prop := f.HasAll e.spans

theorem gives_nothing (f : Fragment) : f.Gives {} := by
  simp [Gives, HasAll, Embedded.spans, spansOf]

theorem readOne_sound (f : Fragment) : f.Sound (fun e => f.HasAll e.spans) f.readOne := by
  unfold readOne
  refine Sound.bind (Sound.parse (.refl f)) fun body hbody => ?_
  have hargs : ∀ {arguments : List Script.Arg}, wrappedArguments? body = some arguments →
      f.HasAll (Script.argsSpans arguments) :=
    fun ha p hp => hbody p (wrappedArguments?_spans ha hp)
  split
  · exact .failure (Nat.zero_le _) _
  · exact .failure (Nat.zero_le _) _
  · next e ha => exact fun p hp => hargs ha p (by simp [Script.argsSpans, Script.Arg.spans, hp])
  · next dots e ha =>
    exact .start (hargs ha (Span.empty dots) (by simp [Script.argsSpans, Script.Arg.spans])) _
  · next e es ha =>
    exact .start (hargs ha e.span (by simp [Script.argsSpans, Script.Arg.spans, e.span_mem])) _
  · next dots e es ha =>
    exact .start (hargs ha e.span (by simp [Script.argsSpans, Script.Arg.spans, e.span_mem])) _
  · exact .failure (Nat.zero_le _) _
  · exact .failure (Nat.zero_le _) _

theorem references_has {e : Script.Expr} (he : f.HasAll e.spans) :
    f.HasAll ((e.references.map Script.Use.reference).map Reference.span) :=
  .references fun _ hu => he _ (Script.Expr.references_span hu)

theorem patReferences_has {pats : List Script.Pat} (h : f.HasAll (Script.patsSpans pats)) :
    f.HasAll (((Script.patReferences pats).map Script.Use.reference).map Reference.span) :=
  .references fun _ hu => h _ (Script.patReferences_span hu)

theorem readPlain_sound (f : Fragment) : f.Sound f.Gives f.readPlain := by
  unfold readPlain
  split
  · exact f.gives_nothing
  · refine Sound.bind f.readOne_sound fun e he => ?_
    intro s hs
    simp only [Embedded.spans, spansOf, Option.map_some, Option.getD_some, Expression.spans,
      List.map_nil, List.append_nil, List.mem_append, List.mem_singleton] at hs
    rcases hs with rfl | hs
    · exact he.expr
    · exact references_has he s hs

/-- The spans of a filter and of its arguments come out of the fragment. -/
structure ReadFilter.From (f : Fragment) (r : ReadFilter) : Prop where
  callee : f.Has r.callee.span
  arguments : f.HasAll (Script.argsSpans r.arguments)
  span : f.Has r.span

namespace ReadFilter.From

variable {r : ReadFilter}

theorem ofPart (hg : g.PartOf f) (hr : r.From g) : r.From f :=
  ⟨.ofPart hg hr.callee, hr.arguments.ofPart hg, .ofPart hg hr.span⟩

theorem filter (hr : r.From f) : f.HasAll r.filter.spans := by
  intro s hs
  simp only [Filter.spans, ReadFilter.filter, List.mem_cons, List.mem_map, List.mem_filterMap] at hs
  rcases hs with rfl | rfl | ⟨x, ⟨a, ha, hx⟩, rfl⟩
  · exact hr.callee
  · exact hr.span
  · cases a with
    | hole => simp [filterArgument?] at hx
    | item e | spread _ e =>
      obtain rfl := Option.some.inj hx
      refine HasAll.expr fun p hp => hr.arguments p (Script.mem_argsSpans ha ?_)
      simp [Script.Arg.spans, hp]

end ReadFilter.From

theorem readFilter_sound (f : Fragment) : f.Sound (ReadFilter.From f) f.readFilter := by
  unfold readFilter
  by_cases hblank : f.isBlank = true
  · rw [if_pos hblank]
    exact .failure (Nat.zero_le _) _
  · rw [if_neg hblank]
    refine Sound.bind f.readOne_sound fun e he => ?_
    split
    · next id =>
      have hname : f.Has id.span := he _ (by simp [Script.Expr.spans])
      exact ⟨hname, by simp [HasAll, Script.argsSpans], hname⟩
    · next span id arguments types =>
      exact ⟨he _ (by simp [Script.Expr.spans]), fun p hp => he p (by simp [Script.Expr.spans, hp]),
        he _ (by simp [Script.Expr.spans])⟩
    · exact .start (he _ (by simp [Script.Expr.spans])) _
    · exact .failure (Nat.zero_le _) _

theorem readFilters_sound {gs : List Fragment} (hgs : ∀ g ∈ gs, g.PartOf f) :
    f.Sound (fun rs => ∀ r ∈ rs, ReadFilter.From f r) (gs.mapM readFilter) := by
  induction gs with
  | nil =>
    intro r hr
    simp at hr
  | cons g gs ih =>
    have hg : g.PartOf f := hgs g (by simp)
    rw [List.mapM_cons]
    refine Sound.bind (Sound.ofPart hg g.readFilter_sound) fun r hr => ?_
    refine Sound.bind (ih fun x hx => hgs x (by simp [hx])) fun rs hrs => ?_
    intro x hx
    rcases List.mem_cons.1 hx with rfl | hx
    · exact hr.ofPart hg
    · exact hrs x hx

theorem readFiltered_sound {gs : List Fragment} (hg : g.PartOf f) (hgs : ∀ x ∈ gs, x.PartOf f) :
    f.Sound f.Gives (g.readFiltered gs) := by
  unfold readFiltered
  refine Sound.bind (Sound.ofPart hg g.readOne_sound) fun e he => ?_
  refine Sound.bind (readFilters_sound hgs) fun rs hrs => ?_
  replace he : f.HasAll e.spans := he.ofPart hg
  have hcover : ∀ (rs : List ReadFilter) (s : Span), (∀ x ∈ rs, ReadFilter.From f x) → f.Has s →
      f.Has (rs.foldl (fun s r => s.cover r.span) s) := by
    intro rs
    induction rs with
    | nil => exact fun s _ hs => hs
    | cons x rs ih =>
      intro s hrs hs
      obtain ⟨ps, hps⟩ := hs
      obtain ⟨qs, hqs⟩ := (hrs x (by simp)).span
      exact ih _ (fun y hy => hrs y (by simp [hy])) ⟨ps ++ qs, .cover hps hqs⟩
  have harguments : ∀ p ∈ Script.argsSpans (rs.flatMap ReadFilter.arguments), f.Has p := by
    intro p hp
    obtain ⟨a, ha, hpa⟩ := Script.exists_of_mem_argsSpans hp
    obtain ⟨r, hr, har⟩ := List.mem_flatMap.1 ha
    exact (hrs r hr).arguments p (Script.mem_argsSpans har hpa)
  intro s hs
  simp only [Embedded.spans, spansOf, Option.map_some, Option.getD_some, Expression.spans,
    List.map_nil, List.append_nil, List.mem_append, List.mem_cons, List.mem_flatMap, List.mem_map] at hs
  rcases hs with (rfl | rfl | ⟨x, ⟨y, hy, rfl⟩, hs⟩) | ⟨x, ⟨u, hu, rfl⟩, rfl⟩
  · exact hcover rs _ hrs he.expr
  · exact he.expr
  · exact (hrs y hy).filter s hs
  · rcases Script.filteredReferences_span hu with hspan | hspan
    · exact he _ hspan
    · exact harguments _ hspan

/-- All spans of an expression come out of the fragment, and so does a fault. -/
theorem readExpression_sound (f : Fragment) (filters : Bool) :
    f.Sound f.Gives (f.readExpression filters) := by
  unfold readExpression
  split
  · exact f.gives_nothing
  · have hparts : ∀ p ∈ (if filters then Script.Scan.splitFilters f.code else []),
        (f.part p.start p.code).PartOf f := by
      intro p hp
      split at hp
      · exact partOf_part (Script.Scan.splitFilters_between hp)
      · simp at hp
    split
    · next head next more heq =>
      rw [heq] at hparts
      refine readFiltered_sound (hparts head (by simp)) fun x hx => ?_
      obtain ⟨p, hp, rfl⟩ := List.mem_map.1 hx
      exact hparts p (List.mem_cons_of_mem head hp)
    · exact f.readPlain_sound

theorem readAliases_sound (f : Fragment) :
    f.Sound (fun pats => f.HasAll (Script.patsSpans pats)) f.readAliases := by
  unfold readAliases
  refine Sound.bind (Sound.parse (.refl f)) fun body hbody => ?_
  split
  · next pats hpats =>
    exact fun p hp => hbody p (wrappedAliases_spans hpats (Script.patsSpans_filter hp))
  · exact .failure (Nat.zero_le _) _
  · exact .failure (Nat.le_refl _) _

theorem mem_iterationReferences {pats : List Script.Pat} {e : Script.Expr} {r : Reference} :
    r ∈ iterationReferences pats e ↔ r ∈ e.references.map Script.Use.reference ∨
      r ∈ (Script.patReferences pats).map Script.Use.reference := by
  rw [iterationReferences, List.mem_mergeSort, List.map_append, List.mem_append]

/-- So do those of an iteration whose aliases and iterable are known. -/
theorem iterationOf_sound {leftSpan span : Span} (hg : g.PartOf f) (hh : h.PartOf f)
    (hleft : f.Has leftSpan) (hspan : f.Has span) (hasParens : Bool) :
    f.Sound f.Gives (iterationOf g h hasParens leftSpan span) := by
  unfold iterationOf
  refine Sound.bind (Sound.ofPart hg g.readAliases_sound) fun pats hpats => ?_
  refine Sound.bind (Sound.ofPart hh h.readOne_sound) fun e he => ?_
  replace hpats : f.HasAll (Script.patsSpans pats) := hpats.ofPart hg
  replace he : f.HasAll e.spans := he.ofPart hh
  intro s hs
  simp only [Embedded.spans, spansOf, Option.map_some, Option.getD_some, Expression.spans,
    List.mem_append, List.mem_cons] at hs
  rcases hs with ((rfl | rfl | rfl | hs) | hs) | hs
  · exact hleft
  · exact hspan
  · exact he.expr
  · exact hpats.pats s hs
  · obtain ⟨r, hr, rfl⟩ := List.mem_map.1 hs
    rcases mem_iterationReferences.1 hr with hr | hr
    · exact references_has he _ (List.mem_map_of_mem hr)
    · exact patReferences_has hpats _ (List.mem_map_of_mem hr)
  · exact hpats.declaredVariables _ s hs

theorem readIteration_sound (f : Fragment) : f.Sound f.Gives f.readIteration := by
  unfold readIteration
  split
  · exact f.gives_nothing
  · cases hsplit : Script.Scan.splitIteration f.code with
    | none => exact Sound.failure (Nat.zero_le _) _
    | some halves =>
      obtain ⟨hleft, hle, hright⟩ := Script.Scan.splitIteration_between hsplit
      have hl : (f.part 0 halves.left).PartOf f := partOf_part (by simpa using hleft)
      have hr : (f.part halves.right.start halves.right.code).PartOf f :=
        partOf_part (by rwa [← hright.1])
      have hstart := between_aliases hsplit
      have htrim : (f.part 0 halves.left).trimStart ≤ byteLength halves.left := trimStart_le _
      have hstop : (f.part halves.right.start halves.right.code).trimStop ≤
          byteLength halves.right.code := trimStop_le _
      have hsize := hright.1
      dsimp only
      by_cases hblank : (f.part 0 halves.left).isBlank = true
      · rw [if_pos hblank]
        exact Sound.failure (Nat.zero_le _) _
      · rw [if_neg hblank]
        have htrimmed : f.Has (f.part 0 halves.left).trimmedSpan :=
          .ofPart hl (has_trimmedSpan (by simpa using hblank))
        have hspan : f.Has (f.map.span (f.part 0 halves.left).trimStart (halves.right.start +
            (f.part halves.right.start halves.right.code).trimStop)) :=
          .text (by omega) (by omega)
        cases hinner : betweenParens? (Text.trim halves.left) with
        | none => exact iterationOf_sound (partOf_part hstart) hr htrimmed hspan false
        | some code =>
          exact iterationOf_sound (partOf_part (between_innerAliases hsplit hinner)) hr htrimmed
            hspan true

theorem readParameters_sound (f : Fragment) : f.Sound f.Gives f.readParameters := by
  unfold readParameters
  by_cases hblank : f.isBlank = true
  · rw [if_pos hblank]
    exact f.gives_nothing
  · rw [if_neg hblank]
    refine Sound.bind (Sound.parse (.refl f)) fun body hbody => ?_
    split
    · exact Sound.failure (Nat.zero_le _) _
    · exact f.gives_nothing
    · next params body _ hx =>
      have hparams : f.HasAll (Script.patsSpans params) :=
        fun p hp => hbody p (wrappedFunction?_spans hx (by simp [Script.Func.spans, hp]))
      intro s hs
      simp only [Embedded.spans, spansOf, Option.map_some, Option.getD_some, Expression.spans,
        List.mem_append, List.mem_cons] at hs
      rcases hs with ((rfl | hs) | hs) | hs
      · exact has_trimmedSpan (by simpa using hblank)
      · exact hparams.pats s hs
      · exact patReferences_has hparams s hs
      · exact hparams.declaredVariables _ s hs

theorem readStatements_sound (hf : f.isBlank = false) : f.Sound f.Gives f.readStatements := by
  unfold readStatements
  refine Sound.bind (Sound.parse (.refl f)) fun body hbody => ?_
  split
  · next params inner hx =>
    have hinner : f.HasAll (Script.stmtsSpans inner) :=
      fun p hp => hbody p (wrappedFunction?_spans hx (by simp [Script.Func.spans, hp]))
    intro s hs
    simp only [Embedded.spans, spansOf, Option.map_some, Option.getD_some, Expression.spans,
      List.map_nil, List.append_nil, List.mem_append, List.mem_cons] at hs
    rcases hs with (rfl | hs) | hs
    · exact has_trimmedSpan hf
    · exact hinner.stmts s hs
    · exact HasAll.references (fun u hu => hinner _ (Script.bodyReferences_span hu)) s hs
  · exact Sound.failure (Nat.zero_le _) _

theorem readHandler_sound (f : Fragment) : f.Sound f.Gives f.readHandler := by
  unfold readHandler
  by_cases hblank : f.isBlank = true
  · rw [if_pos hblank]
    exact f.gives_nothing
  · rw [if_neg hblank]
    dsimp only
    split
    · exact f.readPlain_sound
    · exact readStatements_sound (by simpa using hblank)

end Fragment

/-- Whatever a directive asks for, all spans of its value come out of the text of the value. -/
theorem Reading.readValue_sound (r : Reading) (key : DirectiveKey) (f : Fragment) :
    f.Sound f.Gives (r.readValue key f) := by
  unfold readValue
  split
  · exact f.readIteration_sound
  · exact f.readParameters_sound
  · exact f.readParameters_sound
  · exact f.readParameters_sound
  · exact f.readExpression_sound _
  · split
    · exact f.readHandler_sound
    · exact f.readExpression_sound _
  · exact f.readExpression_sound _

end TemplateSyntax
