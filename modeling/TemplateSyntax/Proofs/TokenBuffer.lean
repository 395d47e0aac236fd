import TemplateSyntax.Proofs.TokenStream

/-! # The tokens that are being built

A token buffer continues a stream: the tokens that were taken out of it and those that are ready
make up the text up to the start of the token that is being built.  `Builds`, `BuildsValue` and
`BuildsMustache` say how far that token reaches, in content and tags, in the value of an attribute
and between double braces.  Each operation of the buffer has one lemma for each of them. -/

namespace TemplateSyntax

open Text (byteLength From Between)

/-- The token `t`, which starts behind `p` and reaches up to `f` so far, may come next in a
stream; it is no value, and the stream is not between double braces. -/
structure Grows (cs : List Char) (gap : Nat → Prop) (m₀ : Mode) (p : Nat) (t : PendingToken)
    (f : Nat) (m : Mode) : Prop where
  after : m₀.after t.kind = some m
  outside : m₀ ≠ .interpolation
  noValue : t.kind ≠ .literal
  le_start : p ≤ t.start
  start_le : t.start ≤ f
  identifier : t.kind = .identifier → ∃ f' ≤ f, Verbatim cs gap t.start t.value f'

variable {cs : List Char} {l : Locator} {gap gap' : Nat → Prop} {taken : List Token}
  {b : TokenBuffer} {m m₀ m' : Mode} {p f f' i j : Nat} {t : PendingToken} {k : TokenKind}
  {q : Option Char} {s : String}

theorem Grows.raise (h : Grows cs gap m₀ p t f m) (hf : f ≤ f') : Grows cs gap m₀ p t f' m :=
  { h with
    start_le := Nat.le_trans h.start_le hf
    identifier := fun hk => by
      obtain ⟨f'', hf'', hv⟩ := h.identifier hk
      exact ⟨f'', Nat.le_trans hf'' hf, hv⟩ }

theorem Grows.mono (h : Grows cs gap m₀ p t f m) (hg : ∀ x, x ≤ f → (gap' x ↔ gap x)) :
    Grows cs gap' m₀ p t f m :=
  { h with
    identifier := fun hk => by
      obtain ⟨f', hf', hv⟩ := h.identifier hk
      exact ⟨f', hf', hv.mono fun x hx => hg x (Nat.le_trans hx hf')⟩ }

/-- The token as it is when nothing more belongs to it. -/
theorem Grows.lexed (h : Grows cs gap m₀ p t f m) (hm : m ≠ .interpolation) (hj : f ≤ j)
    (hsize : j ≤ byteLength cs) : Lexed cs gap m₀ p t j m where
  after := h.after
  le_start := h.le_start
  start_le := Nat.le_trans h.start_le hj
  le_size := hsize
  identifier := (h.raise hj).identifier
  literal := fun hk => absurd hk h.noValue
  opening := fun hk => by
    have ha := h.after
    rw [hk] at ha
    cases m₀ <;> simp_all [Mode.after]
  closing := fun hk => by
    have ha := h.after
    have ho := h.outside
    rw [hk] at ha
    cases m₀ <;> simp_all [Mode.after]
  adjacent := fun hm₀ => absurd hm₀ h.outside
  inner := fun hm₀ => absurd hm₀ h.outside

/-- The buffer is in the middle of content or a tag, and its tokens reach up to `f`. -/
structure Builds (cs : List Char) (l : Locator) (gap : Nat → Prop) (taken : List Token)
    (b : TokenBuffer) (m : Mode) (f : Nat) : Prop where
  noBreach : b.breaches = []
  notHeld : b.heldBack = none
  outside : m ≠ .interpolation
  idle : b.current = none → ∃ p ≤ f, Stream cs l gap (taken ++ b.ready) m p
  busy : ∀ t, b.current = some t →
    ∃ m₀ p, Stream cs l gap (taken ++ b.ready) m₀ p ∧ Grows cs gap m₀ p t f m

/-- The name of an attribute that is being built is the text up to `f`. -/
def NameUpTo (cs : List Char) (gap : Nat → Prop) (b : TokenBuffer) (f : Nat) : Prop :=
  ∀ t, b.current = some t → t.kind = .identifier → Verbatim cs gap t.start t.value f

/-- The buffer builds a value that opens with `q`, whose text decodes up to `f`. -/
structure BuildsValue (cs : List Char) (l : Locator) (gap : Nat → Prop) (taken : List Token)
    (b : TokenBuffer) (q : Option Char) (f : Nat) : Prop where
  noBreach : b.breaches = []
  notHeld : b.heldBack = none
  value : ∃ t p, b.current = some t ∧ t.kind = .literal ∧ p ≤ t.start ∧
    Stream cs l gap (taken ++ b.ready) .tag p ∧ ValueUpTo cs gap q t.start t.value f

/-- The buffer is between double braces, where its tokens decode the text up to `f`. -/
structure BuildsMustache (cs : List Char) (l : Locator) (gap : Nat → Prop)
    (taken : List Token) (b : TokenBuffer) (f : Nat) : Prop where
  noBreach : b.breaches = []
  notHeld : b.heldBack = none
  idle : b.current = none → Stream cs l gap (taken ++ b.ready) .interpolation f
  busy : ∀ t, b.current = some t → (t.kind = .text ∨ t.kind = .whitespace) ∧
    Stream cs l gap (taken ++ b.ready) .interpolation t.start ∧
    Decoded cs gap t.start t.value f

/-- Text that reaches up to `f` is held back, and no token is being built. -/
structure Holds (cs : List Char) (l : Locator) (gap : Nat → Prop) (taken : List Token)
    (b : TokenBuffer) (f : Nat) : Prop where
  idle : b.current = none
  builds : Builds cs l gap taken { b with current := b.heldBack, heldBack := none } .content f

/-- The buffer holds the whole stream, and builds no token any more. -/
structure Rests (cs : List Char) (l : Locator) (gap : Nat → Prop) (taken : List Token)
    (b : TokenBuffer) : Prop where
  noBreach : b.breaches = []
  idle : b.current = none
  notHeld : b.heldBack = none
  stream : ∃ m p, Stream cs l gap (taken ++ b.ready) m p

namespace TokenBuffer

theorem handOver_noBreach (hb : b.breaches = []) (hi : t.start ≤ i) (hsize : i ≤ l.index.size) :
    (b.handOver l t i).breaches = [] := by
  simp [handOver, hb, hi, hsize]

theorem commitHeldBack_of_notHeld (hb : b.heldBack = none) (l : Locator) (i : Nat) :
    b.commitHeldBack l i = b := by
  rw [commitHeldBack, hb]

end TokenBuffer

/-- A token of another kind that starts is no name. -/
theorem NameUpTo.startAt (hk : k ≠ .identifier) : NameUpTo cs gap (b.startAt l k i) f := by
  intro t ht hid
  obtain rfl : ⟨k, i, ""⟩ = t := Option.some.inj ht
  exact absurd hid hk

namespace Builds

theorem mono (h : Builds cs l gap taken b m f) (hg : ∀ x, x ≤ f → (gap' x ↔ gap x)) :
    Builds cs l gap' taken b m f := by
  refine { h with idle := fun hc => ?_, busy := fun t hc => ?_ }
  · obtain ⟨p, hp, hs⟩ := h.idle hc
    exact ⟨p, hp, hs.mono fun x hx => hg x (Nat.le_trans hx hp)⟩
  · obtain ⟨m₀, p, hs, ht⟩ := h.busy t hc
    have hp := Nat.le_trans ht.le_start ht.start_le
    exact ⟨m₀, p, hs.mono fun x hx => hg x (Nat.le_trans hx hp), ht.mono hg⟩

theorem raise (h : Builds cs l gap taken b m f) (hf : f ≤ f') :
    Builds cs l gap taken b m f' := by
  refine { h with idle := fun hc => ?_, busy := fun t hc => ?_ }
  · obtain ⟨p, hp, hs⟩ := h.idle hc
    exact ⟨p, Nat.le_trans hp hf, hs⟩
  · obtain ⟨m₀, p, hs, ht⟩ := h.busy t hc
    exact ⟨m₀, p, hs, ht.raise hf⟩

/-- Text that is appended to a token other than the name of an attribute can be anything. -/
theorem push_other (h : Builds cs l gap taken b m f)
    (hk : ∀ t, b.current = some t → t.kind ≠ .identifier) (s : String) :
    Builds cs l gap taken (b.push s) m f := by
  refine { h with idle := fun hc => ?_, busy := fun t hc => ?_ }
  · exact h.idle (by simpa [TokenBuffer.push] using hc)
  · obtain ⟨t', hc', rfl⟩ := Option.map_eq_some_iff.1 hc
    obtain ⟨m₀, p, hs, ht⟩ := h.busy t' hc'
    exact ⟨m₀, p, hs, { ht with identifier := fun hi => absurd hi (hk t' hc') }⟩

theorem push_content (h : Builds cs l gap taken b .content f) (s : String) :
    Builds cs l gap taken (b.push s) .content f := by
  refine h.push_other (fun t hc hk => ?_) s
  obtain ⟨m₀, p, -, ht⟩ := h.busy t hc
  have ha := ht.after
  rw [hk] at ha
  cases m₀ <;> simp [Mode.after] at ha

/-- Text of the name of an attribute is appended as it stands. -/
theorem push_name (h : Builds cs l gap taken b m f) (hn : NameUpTo cs gap b f)
    (hs : Verbatim cs gap f s f') :
    Builds cs l gap taken (b.push s) m f' ∧ NameUpTo cs gap (b.push s) f' := by
  have hf : f ≤ f' := hs.between.le
  have hname : NameUpTo cs gap (b.push s) f' := by
    intro t hc hk
    obtain ⟨t', hc', rfl⟩ := Option.map_eq_some_iff.1 hc
    exact (hn t' hc' hk).append hs
  refine ⟨{ h.raise hf with idle := fun hc => ?_, busy := fun t hc => ?_ }, hname⟩
  · exact (h.raise hf).idle (by simpa [TokenBuffer.push] using hc)
  · have hc₀ := hc
    obtain ⟨t', hc', rfl⟩ := Option.map_eq_some_iff.1 hc
    obtain ⟨m₀, p, hst, ht⟩ := h.busy t' hc'
    exact ⟨m₀, p, hst, { ht.raise hf with
      identifier := fun hk => ⟨f', Nat.le_refl f', hname _ hc₀ hk⟩ }⟩

section
variable (hl : l.index.size = byteLength cs)
include hl

theorem commitCurrent (h : Builds cs l gap taken b m f) (hi : f ≤ i) (hsize : i ≤ byteLength cs) :
    Builds cs l gap taken (b.commitCurrent l i) m i ∧ (b.commitCurrent l i).current = none := by
  unfold TokenBuffer.commitCurrent
  split
  · next t hc =>
    obtain ⟨m₀, p, hs, ht⟩ := h.busy t hc
    have hj : Lexed cs gap m₀ p t i m := ht.lexed h.outside hi hsize
    refine ⟨⟨?_, h.notHeld, h.outside, fun _ => ⟨i, Nat.le_refl i, ?_⟩, by
      simp [TokenBuffer.handOver]⟩, rfl⟩
    · exact TokenBuffer.handOver_noBreach h.noBreach hj.start_le (hl ▸ hsize)
    · simpa [TokenBuffer.handOver, List.append_assoc] using hs.snoc hj
  · next hc => exact ⟨h.raise hi, hc⟩

/-- A token starts, where the one before it ends. -/
theorem startAt (h : Builds cs l gap taken b m f) (hi : f ≤ i) (hsize : i ≤ byteLength cs)
    (ha : m.after k = some m') (hm' : m' ≠ .interpolation)
    (hk : k ≠ .literal ∧ k ≠ .identifier) : Builds cs l gap taken (b.startAt l k i) m' i := by
  obtain ⟨hc, hn⟩ := h.commitCurrent hl hi hsize
  obtain ⟨p, hp, hs⟩ := hc.idle hn
  refine ⟨hc.noBreach, hc.notHeld, hm', by simp [TokenBuffer.startAt], fun t ht => ?_⟩
  obtain rfl : ⟨k, i, ""⟩ = t := Option.some.inj ht
  exact ⟨m, p, hs, ha, h.outside, hk.1, hp, Nat.le_refl i, fun hi => absurd hi hk.2⟩

/-- The name of an attribute starts. -/
theorem startName (h : Builds cs l gap taken b .tag f) (hi : f ≤ i)
    (hv : Verbatim cs gap i "" i) :
    Builds cs l gap taken (b.startAt l .identifier i) .tag i ∧
      NameUpTo cs gap (b.startAt l .identifier i) i := by
  obtain ⟨hc, hn⟩ := h.commitCurrent hl hi hv.between.le_size
  obtain ⟨p, hp, hs⟩ := hc.idle hn
  refine ⟨⟨hc.noBreach, hc.notHeld, by decide, by simp [TokenBuffer.startAt], fun t ht => ?_⟩,
    fun t ht _ => ?_⟩
  · obtain rfl : ⟨.identifier, i, ""⟩ = t := Option.some.inj ht
    exact ⟨.tag, p, hs, rfl, by decide, by simp, hp, Nat.le_refl i, fun _ => ⟨i, Nat.le_refl i, hv⟩⟩
  · obtain rfl : ⟨.identifier, i, ""⟩ = t := Option.some.inj ht
    exact hv

theorem finish (h : Builds cs l gap taken b m f) (hc : b.current.isSome) (hi : f ≤ i)
    (hsize : i ≤ byteLength cs) : Builds cs l gap taken (b.finish l i) m i := by
  obtain ⟨t, ht⟩ := Option.isSome_iff_exists.1 hc
  have := (h.commitCurrent hl hi hsize).1
  simpa only [TokenBuffer.commitCurrent, TokenBuffer.finish, ht] using this

/-- A token that is started and finished at once. -/
theorem token (h : Builds cs l gap taken b m f) (hi : f ≤ i) (hij : i ≤ j)
    (hsize : j ≤ byteLength cs) (ha : m.after k = some m') (hm' : m' ≠ .interpolation)
    (hk : k ≠ .literal ∧ k ≠ .identifier) :
    Builds cs l gap taken ((b.startAt l k i).finish l j) m' j :=
  (h.startAt hl hi (Nat.le_trans hij hsize) ha hm' hk).finish hl rfl hij hsize

theorem continueAs (h : Builds cs l gap taken b .content f) (hi : f ≤ i)
    (hsize : i ≤ byteLength cs) (ha : Mode.content.after k = some .content)
    (hk : k ≠ .literal ∧ k ≠ .identifier) :
    Builds cs l gap taken (b.continueAs l k i) .content i := by
  unfold TokenBuffer.continueAs
  split
  · exact h.raise hi
  · exact h.startAt hl hi hsize ha (by decide) hk

/-- Text of the content is appended. -/
theorem append (h : Builds cs l gap taken b .content f) (hi : f ≤ i)
    (hsize : i ≤ byteLength cs) (ha : Mode.content.after k = some .content)
    (hk : k ≠ .literal ∧ k ≠ .identifier) (s : String) :
    Builds cs l gap taken (b.append l k s i) .content i :=
  (h.continueAs hl hi hsize ha hk).push_content s

/-- A blank starts the token behind a part of a tag. -/
theorem startBlank (h : Builds cs l gap taken b .tag f) (hi : f ≤ i) (hsize : i ≤ byteLength cs)
    (s : String) : Builds cs l gap taken ((b.startAt l .whitespace i).push s) .tag i := by
  refine (h.startAt hl (k := .whitespace) hi hsize rfl (by decide) (by decide)).push_other ?_ s
  simp [TokenBuffer.startAt]

/-- A blank in a tag is appended. -/
theorem appendBlank (h : Builds cs l gap taken b .tag f) (hi : f ≤ i) (hsize : i ≤ byteLength cs)
    (s : String) : Builds cs l gap taken (b.append l .whitespace s i) .tag i := by
  unfold TokenBuffer.append TokenBuffer.continueAs
  split
  · next hc =>
    refine (h.raise hi).push_other (fun t ht => ?_) s
    simp_all
  · exact h.startBlank hl hi hsize s

/-- A value starts. -/
theorem startValue (h : Builds cs l gap taken b .tag f) (hi : f ≤ i) (hsize : i ≤ byteLength cs)
    (hv : ValueUpTo cs gap q i "" f') : BuildsValue cs l gap taken (b.startAt l .literal i) q f' := by
  obtain ⟨hc, hn⟩ := h.commitCurrent hl hi hsize
  obtain ⟨p, hp, hs⟩ := hc.idle hn
  exact ⟨hc.noBreach, hc.notHeld, ⟨.literal, i, ""⟩, p, rfl, rfl, hp, hs, hv⟩

/-- Double braces open. -/
theorem openMustache (h : Builds cs l gap taken b .content f) (hi : f ≤ i)
    (hb : Between cs i ['{', '{'] j) :
    BuildsMustache cs l gap taken
      (((b.startAt l .interpolationStart i).push s).finish l j) j := by
  have hle := hb.le
  have hsize := hb.le_size
  obtain ⟨hc, hn⟩ := h.commitCurrent hl hi (Nat.le_trans hle hsize)
  obtain ⟨p, hp, hs⟩ := hc.idle hn
  refine ⟨?_, hc.notHeld, fun _ => ?_, by
    simp [TokenBuffer.finish, TokenBuffer.push, TokenBuffer.startAt, TokenBuffer.handOver]⟩
  · exact TokenBuffer.handOver_noBreach hc.noBreach hle (hl ▸ hsize)
  · have ht : Lexed cs gap .content p ⟨.interpolationStart, i, "" ++ s⟩ j .interpolation :=
      ⟨rfl, hp, hle, hsize, by simp, by simp, fun _ => hb, by simp, by simp, by simp⟩
    simpa [TokenBuffer.finish, TokenBuffer.push, TokenBuffer.startAt, TokenBuffer.handOver,
      List.append_assoc] using hs.snoc ht

end

theorem hold (h : Builds cs l gap taken b .content f) : Holds cs l gap taken b.hold f := by
  refine ⟨rfl, ?_⟩
  have hb : { b.hold with current := b.hold.heldBack, heldBack := none } = b := by
    have := h.notHeld
    cases b
    simp_all [TokenBuffer.hold]
  rw [hb]
  exact h

/-- The end of the text finishes the token that is being built. -/
theorem rests (h : Builds cs l gap taken b m f) (hl : l.index.size = byteLength cs)
    (hf : f ≤ byteLength cs) :
    Rests cs l gap taken
      ((b.commitHeldBack l (byteLength cs)).commitCurrent l (byteLength cs)) := by
  rw [TokenBuffer.commitHeldBack_of_notHeld h.notHeld]
  obtain ⟨hc, hn⟩ := h.commitCurrent hl hf (Nat.le_refl _)
  obtain ⟨p, -, hs⟩ := hc.idle hn
  exact ⟨hc.noBreach, hn, hc.notHeld, m, p, hs⟩

theorem stream (h : Builds cs l gap taken b m f) :
    ∃ m p, Stream cs l gap (taken ++ b.ready) m p := by
  cases hc : b.current with
  | none =>
    obtain ⟨p, -, hs⟩ := h.idle hc
    exact ⟨m, p, hs⟩
  | some t =>
    obtain ⟨m₀, p, hs, -⟩ := h.busy t hc
    exact ⟨m₀, p, hs⟩

end Builds

namespace Holds

theorem mono (h : Holds cs l gap taken b f) (hg : ∀ x, x ≤ f → (gap' x ↔ gap x)) :
    Holds cs l gap' taken b f := ⟨h.idle, h.builds.mono hg⟩

theorem restore (h : Holds cs l gap taken b f) : Builds cs l gap taken b.restore .content f := by
  refine { h.builds with noBreach := ?_ }
  have hb : b.breaches = [] := h.builds.noBreach
  simp [TokenBuffer.restore, h.idle, hb]

/-- The end tag that follows text that is held back. -/
theorem promote (h : Holds cs l gap taken b f) (hl : l.index.size = byteLength cs) (hi : f ≤ i)
    (hsize : i ≤ byteLength cs) :
    Builds cs l gap taken ((b.commitHeldBack l i).startAt l .endTagOpen i) .tag i := by
  have hb : (b.commitHeldBack l i).commitCurrent l i =
      { b with current := b.heldBack, heldBack := none }.commitCurrent l i := by
    have hn := h.idle
    cases hb : b.heldBack with
    | none =>
      rw [TokenBuffer.commitHeldBack_of_notHeld hb l i]
      cases b
      simp_all
    | some t =>
      simp [TokenBuffer.commitHeldBack, TokenBuffer.commitCurrent, TokenBuffer.handOver, hb, hn]
  have hs := h.builds.startAt hl (k := .endTagOpen) hi hsize rfl (by decide) (by decide)
  rw [TokenBuffer.startAt, hb]
  exact hs

end Holds

namespace BuildsValue

theorem mono (h : BuildsValue cs l gap taken b q f) (hg : ∀ x, x ≤ f → (gap' x ↔ gap x)) :
    BuildsValue cs l gap' taken b q f := by
  obtain ⟨t, p, ht, hk, hp, hs, hv⟩ := h.value
  have hle := Nat.le_trans hp hv.start_le
  exact ⟨h.noBreach, h.notHeld, t, p, ht, hk, hp, hs.mono fun x hx => hg x (Nat.le_trans hx hle),
    hv.mono hg⟩

/-- The value goes on with pieces that do not close it. -/
theorem push {ps : List Piece} (h : BuildsValue cs l gap taken b q f)
    (hps : Decodes cs gap f ps f') (hs : Piece.values ps = s.toList)
    (hq : ∀ c, q = some c → c ∉ Piece.raws ps) :
    BuildsValue cs l gap taken (b.push s) q f' := by
  obtain ⟨t, p, ht, hk, hp, hst, hv⟩ := h.value
  exact ⟨h.noBreach, h.notHeld, { t with value := t.value ++ s }, p, by
    simp [TokenBuffer.push, ht], hk, hp, hst, hv.append hps hs hq⟩

theorem lexed {t : PendingToken} (hk : t.kind = .literal) (hp : p ≤ t.start)
    (hv : ValueUpTo cs gap q t.start t.value f) (hc : ClosesValue cs f j q)
    (hsize : j ≤ byteLength cs) : Lexed cs gap .tag p t j .tag where
  after := by rw [hk]; rfl
  le_start := hp
  start_le := Nat.le_trans hv.start_le hc.le
  le_size := hsize
  identifier := by simp [hk]
  literal := fun _ => ⟨q, f, hv, hc⟩
  opening := by simp [hk]
  closing := by simp [hk]
  adjacent := by simp
  inner := by simp

section
variable (hl : l.index.size = byteLength cs)
include hl

/-- The value ends, and the tag goes on. -/
theorem commitCurrent (h : BuildsValue cs l gap taken b q f) (hc : ClosesValue cs f j q)
    (hsize : j ≤ byteLength cs) :
    Builds cs l gap taken (b.commitCurrent l j) .tag j ∧ (b.commitCurrent l j).current = none := by
  obtain ⟨t, p, ht, hk, hp, hs, hv⟩ := h.value
  have hj := lexed hk hp hv hc hsize
  simp only [TokenBuffer.commitCurrent, ht]
  refine ⟨⟨?_, h.notHeld, by decide, fun _ => ⟨j, Nat.le_refl j, ?_⟩, by
    simp [TokenBuffer.handOver]⟩, rfl⟩
  · exact TokenBuffer.handOver_noBreach h.noBreach hj.start_le (hl ▸ hsize)
  · simpa [TokenBuffer.handOver, List.append_assoc] using hs.snoc hj

theorem finish (h : BuildsValue cs l gap taken b q f) (hc : ClosesValue cs f j q)
    (hsize : j ≤ byteLength cs) : Builds cs l gap taken (b.finish l j) .tag j := by
  have := (h.commitCurrent hl hc hsize).1
  obtain ⟨t, p, ht, -⟩ := h.value
  simpa only [TokenBuffer.commitCurrent, TokenBuffer.finish, ht] using this

/-- A token starts where a value without quotes ends. -/
theorem startAt (h : BuildsValue cs l gap taken b none f) (hsize : f ≤ byteLength cs)
    (ha : Mode.tag.after k = some m') (hm' : m' ≠ .interpolation)
    (hk : k ≠ .literal ∧ k ≠ .identifier) : Builds cs l gap taken (b.startAt l k f) m' f := by
  obtain ⟨hc, hn⟩ := h.commitCurrent hl (show ClosesValue cs f f none from rfl) hsize
  have hb : b.startAt l k f = (b.commitCurrent l f).startAt l k f := by
    simp only [TokenBuffer.startAt]
    rw [TokenBuffer.commitCurrent.eq_1 (b.commitCurrent l f), hn]
  rw [hb]
  exact hc.startAt hl (Nat.le_refl f) hsize ha hm' hk

/-- The end of the text finishes the value. -/
theorem rests (h : BuildsValue cs l gap taken b q (byteLength cs)) :
    Rests cs l gap taken
      ((b.commitHeldBack l (byteLength cs)).commitCurrent l (byteLength cs)) := by
  have hq : ClosesValue cs (byteLength cs) (byteLength cs) q := by
    cases q with
    | none => rfl
    | some c => exact .inr ⟨rfl, rfl⟩
  rw [TokenBuffer.commitHeldBack_of_notHeld h.notHeld]
  obtain ⟨hc, hn⟩ := h.commitCurrent hl hq (Nat.le_refl _)
  obtain ⟨p, -, hs⟩ := hc.idle hn
  exact ⟨hc.noBreach, hn, hc.notHeld, .tag, p, hs⟩

end

theorem stream (h : BuildsValue cs l gap taken b q f) :
    ∃ m p, Stream cs l gap (taken ++ b.ready) m p := by
  obtain ⟨t, p, -, -, -, hs, -⟩ := h.value
  exact ⟨.tag, p, hs⟩

end BuildsValue

namespace BuildsMustache

theorem mono (h : BuildsMustache cs l gap taken b f) (hg : ∀ x, x ≤ f → (gap' x ↔ gap x)) :
    BuildsMustache cs l gap' taken b f := by
  refine { h with idle := fun hc => (h.idle hc).mono hg, busy := fun t hc => ?_ }
  obtain ⟨hk, hs, hd⟩ := h.busy t hc
  exact ⟨hk, hs.mono fun x hx => hg x (Nat.le_trans hx hd.le), hd.mono hg⟩

theorem lexed {t : PendingToken} (hk : t.kind = .text ∨ t.kind = .whitespace)
    (hd : Decoded cs gap t.start t.value f) :
    Lexed cs gap .interpolation t.start t f .interpolation where
  after := by rcases hk with hk | hk <;> rw [hk] <;> rfl
  le_start := Nat.le_refl _
  start_le := hd.le
  le_size := hd.le_size
  identifier := by rcases hk with hk | hk <;> simp [hk]
  literal := by rcases hk with hk | hk <;> simp [hk]
  opening := by rcases hk with hk | hk <;> simp [hk]
  closing := by rcases hk with hk | hk <;> simp [hk]
  adjacent := fun _ => rfl
  inner := fun _ _ => hd

section
variable (hl : l.index.size = byteLength cs)
include hl

theorem commitCurrent (h : BuildsMustache cs l gap taken b f) :
    BuildsMustache cs l gap taken (b.commitCurrent l f) f ∧
      (b.commitCurrent l f).current = none := by
  unfold TokenBuffer.commitCurrent
  split
  · next t hc =>
    obtain ⟨hk, hs, hd⟩ := h.busy t hc
    have hj := lexed hk hd
    refine ⟨⟨?_, h.notHeld, fun _ => ?_, by simp [TokenBuffer.handOver]⟩, rfl⟩
    · exact TokenBuffer.handOver_noBreach h.noBreach hj.start_le (hl ▸ hj.le_size)
    · simpa [TokenBuffer.handOver, List.append_assoc] using hs.snoc hj
  · next hc => exact ⟨h, hc⟩

/-- Decoded text is appended. -/
theorem append (h : BuildsMustache cs l gap taken b f) (hd : Decoded cs gap f s f')
    (hk : k = .text ∨ k = .whitespace) : BuildsMustache cs l gap taken (b.append l k s f) f' := by
  unfold TokenBuffer.append TokenBuffer.continueAs
  split
  · next hc =>
    obtain ⟨t, ht, hkt⟩ := Option.map_eq_some_iff.1 hc
    refine ⟨h.noBreach, h.notHeld, by simp [TokenBuffer.push, ht], fun t' ht' => ?_⟩
    obtain ⟨-, hs, hd'⟩ := h.busy t ht
    obtain rfl : { t with value := t.value ++ s } = t' := by
      simpa [TokenBuffer.push, ht] using ht'
    exact ⟨hkt ▸ hk, hs, hd'.append hd⟩
  · obtain ⟨hc, hn⟩ := h.commitCurrent hl
    refine ⟨hc.noBreach, hc.notHeld, by simp [TokenBuffer.push, TokenBuffer.startAt],
      fun t' ht' => ?_⟩
    obtain rfl : (⟨k, f, "" ++ s⟩ : PendingToken) = t' := by
      simpa [TokenBuffer.push, TokenBuffer.startAt] using ht'
    exact ⟨hk, hc.idle hn, hd.start.append hd⟩

/-- Double braces close. -/
theorem close (h : BuildsMustache cs l gap taken b f) (hb : Between cs f ['}', '}'] j) :
    Builds cs l gap taken (((b.startAt l .interpolationEnd f).push s).finish l j) .content j := by
  have hle := hb.le
  have hsize := hb.le_size
  obtain ⟨hc, hn⟩ := h.commitCurrent hl
  have ht : Lexed cs gap .interpolation f ⟨.interpolationEnd, f, "" ++ s⟩ j .content :=
    ⟨rfl, Nat.le_refl f, hle, hsize, by simp, by simp, by simp, fun _ => hb, by simp, by simp⟩
  refine ⟨?_, hc.notHeld, by decide, fun _ => ⟨j, Nat.le_refl j, ?_⟩, by
    simp [TokenBuffer.finish, TokenBuffer.push, TokenBuffer.startAt, TokenBuffer.handOver]⟩
  · exact TokenBuffer.handOver_noBreach hc.noBreach hle (hl ▸ hsize)
  · simpa [TokenBuffer.finish, TokenBuffer.push, TokenBuffer.startAt, TokenBuffer.handOver,
      List.append_assoc] using (hc.idle hn).snoc ht

/-- The end of the text finishes the text between the braces. -/
theorem rests (h : BuildsMustache cs l gap taken b (byteLength cs)) :
    Rests cs l gap taken
      ((b.commitHeldBack l (byteLength cs)).commitCurrent l (byteLength cs)) := by
  rw [TokenBuffer.commitHeldBack_of_notHeld h.notHeld]
  obtain ⟨hc, hn⟩ := h.commitCurrent hl
  exact ⟨hc.noBreach, hn, hc.notHeld, .interpolation, _, hc.idle hn⟩

end

theorem stream (h : BuildsMustache cs l gap taken b f) :
    ∃ m p, Stream cs l gap (taken ++ b.ready) m p := by
  cases hc : b.current with
  | none => exact ⟨_, _, h.idle hc⟩
  | some t => exact ⟨_, _, (h.busy t hc).2.1⟩

end BuildsMustache
end TemplateSyntax
