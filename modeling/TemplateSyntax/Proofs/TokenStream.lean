import TemplateSyntax.Markup.Lexer.TokenBuffer
import TemplateSyntax.Proofs.Piece

/-! # Streams of tokens

The tokens of a template follow each other in the text, and only some kinds of token can come
next: the parts of a tag stand between its start and its end, and only text stands between double
braces.  `Stream` says so of all tokens that were handed over, and says which text the tokens with
embedded code decode: the values of attributes and what stands between double braces. -/

namespace TemplateSyntax

open Text (byteLength From Between)

/-- What a stream of tokens stops in the middle of. -/
inductive Mode where
  | content | tag | interpolation
  deriving DecidableEq, Repr

namespace Mode

/-- What a stream is in the middle of behind one more token, if such a token can come next. -/
def after : Mode → TokenKind → Option Mode
  | content, .tagOpen | content, .endTagOpen => some tag
  | content, .interpolationStart => some interpolation
  | content, .text | content, .whitespace | content, .rcdataText | content, .rawText
  | content, .cdataText | content, .comment | content, .bogusComment => some content
  | tag, .identifier | tag, .association | tag, .literal | tag, .whitespace => some tag
  | tag, .tagClose | tag, .selfClosingTagClose => some content
  | interpolation, .text | interpolation, .whitespace => some interpolation
  | interpolation, .interpolationEnd => some content
  | _, _ => none

end Mode

/-- The characters that values of attributes are quoted with. -/
def isQuote (c : Char) : Bool := c == '"' || c == '\''

/-- How the value of an attribute starts at `i`: with the quote `q`, or without one. -/
def OpensValue (cs : List Char) (i : Nat) : Option Char → Prop
  | some q => isQuote q = true ∧ ∃ tail, From cs i (q :: tail)
  | none => ∃ c tail, From cs i (c :: tail) ∧ isQuote c = false

/-- Where the text of a value starts that opens at `i`. -/
def valueStart (i : Nat) : Option Char → Nat
  | some _ => i + 1
  | none => i

/-- A value that opens at `i` decodes to `value` up to `stop`, and is not closed by then. -/
def ValueUpTo (cs : List Char) (gap : Nat → Prop) (q : Option Char) (i : Nat) (value : String)
    (stop : Nat) : Prop :=
  OpensValue cs i q ∧
    ∃ ps, Decodes cs gap (valueStart i q) ps stop ∧ Piece.values ps = value.toList ∧
      ∀ c, q = some c → c ∉ Piece.raws ps

/-- How a value ends whose text stops at `f`: in front of `j`, with its quote if it has one and
the text goes on. -/
def ClosesValue (cs : List Char) (f j : Nat) : Option Char → Prop
  | some q => Between cs f [q] j ∨ (j = f ∧ f = byteLength cs)
  | none => j = f

/-- The value `v` is the text from `i` up to `f` as it stands there, where no gaps are on
record. -/
structure Verbatim (cs : List Char) (gap : Nat → Prop) (i : Nat) (v : String) (f : Nat) :
    Prop where
  between : Between cs i v.toList f
  noGap : ∀ x, i ≤ x → x ≤ f → ¬ gap x

/-- The token `t`, which ends before `j`, comes next behind `p` in a stream. -/
structure Lexed (cs : List Char) (gap : Nat → Prop) (m : Mode) (p : Nat) (t : PendingToken)
    (j : Nat) (m' : Mode) : Prop where
  after : m.after t.kind = some m'
  le_start : p ≤ t.start
  start_le : t.start ≤ j
  le_size : j ≤ byteLength cs
  identifier : t.kind = .identifier → ∃ f ≤ j, Verbatim cs gap t.start t.value f
  literal : t.kind = .literal →
    ∃ q f, ValueUpTo cs gap q t.start t.value f ∧ ClosesValue cs f j q
  opening : t.kind = .interpolationStart → Between cs t.start ['{', '{'] j
  closing : t.kind = .interpolationEnd → Between cs t.start ['}', '}'] j
  adjacent : m = .interpolation → t.start = p
  inner : m = .interpolation → m' = .interpolation → Decoded cs gap t.start t.value j

/-- The tokens `ts` make up the text up to `p`, and stop in the middle of `m`. -/
inductive Stream (cs : List Char) (l : Locator) (gap : Nat → Prop) :
    List Token → Mode → Nat → Prop
  | nil : Stream cs l gap [] .content 0
  | snoc {ts : List Token} {m m' : Mode} {p j : Nat} {t : PendingToken}
      (h : Stream cs l gap ts m p) (ht : Lexed cs gap m p t j m') :
      Stream cs l gap (ts ++ [l.token t j]) m' j

variable {cs : List Char} {l : Locator} {gap gap' : Nat → Prop} {ts : List Token}
  {m m' : Mode} {p p' f f' i j : Nat} {t : PendingToken} {q : Option Char} {v w : String}

theorem Verbatim.mono (h : Verbatim cs gap i v f) (hg : ∀ x, x ≤ f → (gap' x ↔ gap x)) :
    Verbatim cs gap' i v f :=
  ⟨h.between, fun x hlo hhi => by rw [hg x hhi]; exact h.noGap x hlo hhi⟩

/-- The text goes on as it stands. -/
theorem Verbatim.append (h : Verbatim cs gap i v f) (hw : Verbatim cs gap f w f') :
    Verbatim cs gap i (v ++ w) f' := by
  refine ⟨?_, fun x hlo hhi => ?_⟩
  · rw [String.toList_append]
    exact h.between.append hw.between
  · by_cases hx : x ≤ f
    · exact h.noGap x hlo hx
    · exact hw.noGap x (by omega) hhi

namespace ValueUpTo

theorem mono (h : ValueUpTo cs gap q i v f) (hg : ∀ x, x ≤ f → (gap' x ↔ gap x)) :
    ValueUpTo cs gap' q i v f := by
  obtain ⟨ho, ps, hps, hv, hq⟩ := h
  exact ⟨ho, ps, hps.mono hg, hv, hq⟩

theorem le_valueStart : i ≤ valueStart i q := by
  cases q with
  | none => exact Nat.le_refl i
  | some c => exact Nat.le_succ i

theorem start_le (h : ValueUpTo cs gap q i v f) : i ≤ f := by
  obtain ⟨-, ps, hps, -, -⟩ := h
  exact Nat.le_trans le_valueStart hps.between.le

/-- The value goes on with pieces that do not close it. -/
theorem append {ps : List Piece} (h : ValueUpTo cs gap q i v f) (hps : Decodes cs gap f ps f')
    (hw : Piece.values ps = w.toList) (hq : ∀ c, q = some c → c ∉ Piece.raws ps) :
    ValueUpTo cs gap q i (v ++ w) f' := by
  obtain ⟨ho, ps', hps', hv, hq'⟩ := h
  refine ⟨ho, ps' ++ ps, hps'.append hps, ?_, fun c hc => ?_⟩
  · rw [Piece.values_append, hv, hw, String.toList_append]
  · rw [Piece.raws_append, List.mem_append, not_or]
    exact ⟨hq' c hc, hq c hc⟩

end ValueUpTo

theorem ClosesValue.le (h : ClosesValue cs f j q) : f ≤ j := by
  cases q with
  | none => exact Nat.le_of_eq (Eq.symm h)
  | some c =>
    rcases h with h | ⟨rfl, -⟩
    · exact h.le
    · exact Nat.le_refl _

theorem Lexed.mono (h : Lexed cs gap m p t j m') (hg : ∀ x, x ≤ j → (gap' x ↔ gap x)) :
    Lexed cs gap' m p t j m' := by
  refine { h with
    identifier := fun hk => ?_
    literal := fun hk => ?_
    inner := fun hm hm' => (h.inner hm hm').mono hg }
  · obtain ⟨f, hf, hv⟩ := h.identifier hk
    exact ⟨f, hf, hv.mono fun x hx => hg x (Nat.le_trans hx hf)⟩
  · obtain ⟨q, f, hv, hc⟩ := h.literal hk
    exact ⟨q, f, hv.mono fun x hx => hg x (Nat.le_trans hx hc.le), hc⟩

/-- Gaps that are recorded behind a stream leave it as it is. -/
theorem Stream.mono (h : Stream cs l gap ts m p) (hg : ∀ x, x ≤ p → (gap' x ↔ gap x)) :
    Stream cs l gap' ts m p := by
  induction h with
  | nil => exact .nil
  | snoc h ht ih =>
    have hle := Nat.le_trans ht.le_start ht.start_le
    exact .snoc (ih fun x hx => hg x (Nat.le_trans hx hle)) (ht.mono hg)

/-- The last token of a stream comes next behind the others. -/
theorem Stream.snoc_inv {tok : Token} (h : Stream cs l gap (ts ++ [tok]) m p) :
    ∃ m₀ p₀ t, Stream cs l gap ts m₀ p₀ ∧ Lexed cs gap m₀ p₀ t p m ∧ tok = l.token t p := by
  generalize hts : ts ++ [tok] = ts' at h
  cases h with
  | nil => simp at hts
  | @snoc ts₀ m₀ _ p₀ _ t h ht =>
    obtain ⟨rfl, heq⟩ := List.append_inj' hts rfl
    exact ⟨m₀, p₀, t, h, ht, List.singleton_inj.1 heq⟩

/-- What a stream starts with is a stream. -/
theorem Stream.front {ts' : List Token} (h : Stream cs l gap (ts ++ ts') m p) :
    ∃ m₀ p₀, Stream cs l gap ts m₀ p₀ := by
  generalize hts : ts ++ ts' = us at h
  induction h generalizing ts' with
  | nil =>
    obtain ⟨rfl, -⟩ := List.append_eq_nil_iff.1 hts
    exact ⟨.content, 0, .nil⟩
  | @snoc us m m' p j t h ht ih =>
    rcases List.eq_nil_or_concat ts' with rfl | ⟨ts'', tok, rfl⟩
    · rw [List.append_nil] at hts
      subst hts
      exact ⟨m', j, h.snoc ht⟩
    · rw [List.concat_eq_append, ← List.append_assoc] at hts
      exact ih (List.append_inj' hts rfl).1

/-- The tokens of a stream determine what it stops in the middle of, and where. -/
theorem Stream.unique (h : Stream cs l gap ts m p) (h' : Stream cs l gap' ts m' p') :
    m = m' ∧ p = p' := by
  induction h generalizing m' p' with
  | nil =>
    generalize hts : ([] : List Token) = ts at h'
    cases h' with
    | nil => exact ⟨rfl, rfl⟩
    | snoc h ht => simp at hts
  | @snoc ts m₀ m p₀ j t h ht ih =>
    obtain ⟨m₁, p₁, t', h₁, ht', heq⟩ := h'.snoc_inv
    obtain ⟨rfl, rfl⟩ := ih h₁
    have hkind : t.kind = t'.kind := congrArg Token.kind heq
    have hstop : l.host j = l.host p' := congrArg (fun tok => tok.extent.span.stop) heq
    refine ⟨Option.some.inj (ht.after.symm.trans ?_), Nat.add_left_cancel hstop⟩
    rw [hkind]
    exact ht'.after

/-- The positions by a token are those of the ends of its span. -/
theorem Stream.placed (h : Stream cs l gap ts m p) : ∀ t ∈ ts, t.extent = l.extent t.extent.span := by
  induction h with
  | nil => exact fun t ht => absurd ht List.not_mem_nil
  | snoc h ht ih =>
    intro t hmem
    rcases List.mem_append.1 hmem with hmem | hmem
    · exact ih t hmem
    · obtain rfl := List.mem_singleton.1 hmem
      rfl

theorem Stream.le_size (h : Stream cs l gap ts m p) : p ≤ byteLength cs := by
  cases h with
  | nil => exact Nat.zero_le _
  | snoc h ht => exact ht.le_size

end TemplateSyntax
