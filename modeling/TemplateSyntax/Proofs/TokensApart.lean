import Mathlib.Data.List.Pairwise
import TemplateSyntax.Proofs.LexerFills
import TemplateSyntax.Proofs.OutlineMove
import TemplateSyntax.Proofs.ParseStages

/-! # Tokens stand apart

The builder puts each token that is handed out on record, comments by themselves.  The tokens are a
stream, in which each one starts where the one before it ends or later, and none of them is empty.  So
the tokens and the comments of a template together are disjoint pieces of its text, and each of the
two lists is in the order of the text. -/

namespace TemplateSyntax

open Text (byteLength)

/-! ## The record of tokens -/

namespace Assembler

variable (a : Assembler)

/-- The tokens and the comments that are on record. -/
def record : Array Token × Array Token := (a.tokens, a.comments)

theorem record_emitCurrent : a.emitCurrent.record = a.record := by
  unfold emitCurrent
  split <;> rfl

theorem record_flushInterpolation : a.flushInterpolation.record = a.record := by
  unfold flushInterpolation
  split
  · rfl
  · next o _ =>
    dsimp only
    split
    · rfl
    · exact record_emitCurrent { a with opening := none, inside := #[] }

theorem record_commit : a.commit.record = a.record :=
  a.flushInterpolation.record_emitCurrent.trans a.record_flushInterpolation

theorem record_text (t : Token) : (a.text t).record = a.record := by
  unfold text
  dsimp only
  split
  · rfl
  · split
    · split
      · rfl
      · exact a.record_commit
    · exact a.record_commit

theorem record_tagPart (t : Token) : (a.tagPart t).record = (a.keep t).record := by
  unfold tagPart
  split
  · split <;> rfl
  · rfl

theorem record_identifier (t : Token) : (a.identifier t).record = (a.keep t).record := by
  unfold identifier
  dsimp only
  split
  · split <;> rfl
  · rfl
  · rfl

theorem record_literal (t : Token) : (a.literal t).record = (a.keep t).record := by
  unfold literal
  dsimp only
  split <;> rfl

theorem record_tagClose (t : Token) (selfClosing : Bool) :
    (a.tagClose t selfClosing).record = (a.keep t).record := by
  unfold tagClose
  dsimp only
  rw [record_commit]
  split
  · rfl
  · split <;> rfl
  · rfl

theorem record_interpolationStart (t : Token) :
    (a.interpolationStart t).record = (a.keep t).record := by
  unfold interpolationStart
  dsimp only
  generalize a.keep t = a'
  split
  · exact a'.record_text t
  · have hseparated : ∀ separated : Bool,
        (if separated then a'.commit else a').record = a'.record := fun separated => by
      split
      · exact a'.record_commit
      · rfl
    exact hseparated _

theorem record_interpolationEnd (t : Token) :
    (a.interpolationEnd t).record = (a.keep t).record := by
  unfold interpolationEnd
  dsimp only
  generalize a.keep t = a'
  split
  · exact a'.record_text t
  · next o _ =>
    split
    · rw [record_text, record_text]
      rfl
    · exact record_commit { a' with opening := none, inside := #[] }

/-- A token goes to the comments or to the other tokens. -/
theorem record_process (t : Token) : (a.process t).record =
    if t.kind.isComment then (a.tokens, a.comments.push t) else (a.tokens.push t, a.comments) := by
  unfold process
  cases t.kind with
  | comment | bogusComment => rfl
  | tagOpen | endTagOpen => exact record_commit (a.keep t)
  | identifier => exact a.record_identifier t
  | association => exact a.record_tagPart t
  | literal => exact a.record_literal t
  | tagClose | selfClosingTagClose => exact a.record_tagClose t _
  | interpolationStart => exact a.record_interpolationStart t
  | interpolationEnd => exact a.record_interpolationEnd t
  | text | rcdataText | rawText | cdataText => exact record_text (a.keep t) t
  | whitespace =>
    dsimp only
    split
    · exact a.record_tagPart t
    · exact record_text (a.keep t) t

/-- All tokens that were taken are on record, the comments by themselves. -/
structure Records (taken : List Token) : Prop where
  tokens : a.tokens.toList = taken.filter fun t => !t.kind.isComment
  comments : a.comments.toList = taken.filter fun t => t.kind.isComment

variable {a : Assembler} {taken : List Token}

theorem Records.congr {a' : Assembler} (h : a.Records taken) (hr : a'.record = a.record) :
    a'.Records taken := by
  obtain ⟨htokens, hcomments⟩ := Prod.mk.inj hr
  exact ⟨htokens ▸ h.tokens, hcomments ▸ h.comments⟩

theorem Records.process (h : a.Records taken) (t : Token) :
    (a.process t).Records (taken ++ [t]) := by
  have hrecord := a.record_process t
  cases hk : t.kind.isComment with
  | true =>
    rw [hk, if_pos rfl] at hrecord
    obtain ⟨htokens, hcomments⟩ := Prod.mk.inj hrecord
    exact ⟨by simp [htokens, h.tokens, hk], by simp [hcomments, h.comments, hk]⟩
  | false =>
    rw [hk, if_neg (by decide)] at hrecord
    obtain ⟨htokens, hcomments⟩ := Prod.mk.inj hrecord
    exact ⟨by simp [htokens, h.tokens, hk], by simp [hcomments, h.comments, hk]⟩

end Assembler

namespace Builder

variable {b : Builder}

theorem closeElement_assembler (b : Builder) (id : Nat) :
    (b.closeElement id).assembler = b.assembler := by
  unfold closeElement
  dsimp only
  split <;> rfl

theorem closeInnermost_assembler (b : Builder) (count : Nat) :
    (b.closeInnermost count).assembler = b.assembler := by
  induction count generalizing b with
  | zero => rfl
  | succ count ih =>
    rw [closeInnermost]
    split
    · exact (ih _).trans (closeElement_assembler _ _)
    · rfl

/-- What is done behind the text leaves the record as it is. -/
theorem placeRoot_closeAll_assembler (b : Builder) :
    b.closeAll.placeRoot.assembler = b.assembler :=
  b.closeInnermost_assembler b.opened.length

end Builder

/-! ## Runs -/

/-- The lexer goes on to tokens that cover text, however it is told to read on. -/
theorem Lexer.CoversText.steered {x y : Lexer} (h : x.CoversText) (hy : x.Steered y)
    (hc : x.AtContent) : y.CoversText := by
  cases hy with
  | told hy =>
    obtain ⟨ns, interpolating, log, rfl⟩ := hy
    exact h.outside ns interpolating log
  | entered hy hs =>
    obtain ⟨ns, interpolating, log, rfl⟩ := hy
    exact (h.outside ns interpolating log).enter hs ⟨hc.ready, hc.place⟩

section
variable {cs : List Char} {l : Locator} {taken : List Token} {a : Assembler} {b : Builder}
  {closing : Prop} {floor : Nat}

theorem Stands.onUnits_coversText {us : List MarkupUnit} {hi : Nat}
    (h : Stands closing cs l taken a b floor) (hu : UnitsIn closing taken floor us hi)
    (hhi : hi ≤ l.host l.index.size) (hb : b.lexer.CoversText) :
    (us.foldl Builder.onUnit b).lexer.CoversText := by
  induction us generalizing b floor with
  | nil => exact hb
  | cons u us ih =>
    obtain ⟨hfloor, hle, hrest⟩ := hu.inOrder
    have hstart : ∀ t, u = .startTag t → closing := fun t ht =>
      hu.closed t (ht ▸ List.mem_cons_self ..)
    obtain ⟨hstands, -⟩ := h.onUnit (hu.readFrom u (List.mem_cons_self ..)) hstart hfloor hle
      (Nat.le_trans hrest.le hhi)
    refine ih hstands ⟨hrest, fun v hv => hu.readFrom v (List.mem_cons_of_mem u hv),
      fun t ht => hu.closed t (List.mem_cons_of_mem u ht)⟩ ?_
    obtain ⟨hsteered, htold⟩ := Builder.onUnit_steered (.refl b.lexer) u
    by_cases hclosing : closing
    · exact hb.steered hsteered (h.built.atContent hclosing)
    · obtain ⟨ns, interpolating, log, heq⟩ := htold fun t ht => hclosing (hstart t ht)
      exact heq ▸ hb.outside ns interpolating log

/-- The lexer and the record of a builder behind the tokens `taken`. -/
structure Apart (taken : List Token) (b : Builder) : Prop where
  covers : ∀ t ∈ taken, t.Covers
  lexer : b.lexer.CoversText
  records : b.assembler.Records taken

/-- A token more is taken. -/
theorem Runs.take_apart (h : Runs cs l taken b) {t : Token} {x : Lexer}
    (hx : x.Tracks cs (taken ++ [t])) (hloc : x.locator = l)
    (hc : t.kind.closesTag = true → x.AtContent) (hb : Apart taken b) (ht : t.Covers)
    (hl : x.CoversText) : Apart (taken ++ [t]) (b.take t x) := by
  obtain ⟨floor, mid, m, p, hstands, hmid, -, hunits, -⟩ := h.process hx hloc
  have hbuilt : Stands (t.kind.closesTag = true) cs l (taken ++ [t])
      { b.assembler.process t with output := #[] }
      { b with lexer := x, assembler := { b.assembler.process t with output := #[] } } floor :=
    ⟨hstands.built.taking hx hloc hc, hstands.noEndTags⟩
  have htake : b.take t x = (b.assembler.process t).output.toList.foldl Builder.onUnit
      { b with lexer := x, assembler := { b.assembler.process t with output := #[] } } := by
    simp only [Builder.take, Builder.drain, Assembler.takeOutput, ← Array.foldl_toList]
  rw [htake]
  refine ⟨fun y hy => ?_, hbuilt.onUnits_coversText hunits hmid hl, ?_⟩
  · rcases List.mem_append.1 hy with hy | hy
    · exact hb.covers y hy
    · exact List.mem_singleton.1 hy ▸ ht
  · rw [(hbuilt.onUnits hunits hmid).1.built.assembler]
    exact (hb.records.process t).congr rfl

/-- At the end of the text the record stays as it is. -/
theorem Runs.atEnd_records (h : Runs cs l taken b) {x : Lexer} (hx : x.Tracks cs taken)
    (hloc : x.locator = l) (hf : x.finished = true) (hr : x.buffer.ready = [])
    (hb : b.assembler.Records taken) : (b.atEnd x).assembler.Records taken := by
  obtain ⟨floor, mid, p, hstands, hmid, hunits, -⟩ := h.commit hx hloc
  have hbuilt : Stands True cs l taken { b.assembler.commit with output := #[] }
      { b with lexer := x, assembler := { b.assembler.commit with output := #[] } } floor :=
    ⟨{ hstands.built with
        assembler := rfl
        locator := ⟨hstands.built.locator.1, hloc⟩
        tracks := hx
        atContent := fun _ => ⟨hr, .inl hf⟩ }, hstands.noEndTags⟩
  have hend : b.atEnd x = b.assembler.commit.output.toList.foldl Builder.onUnit
      { b with lexer := x, assembler := { b.assembler.commit with output := #[] } } := by
    simp only [Builder.atEnd, Builder.drain, Assembler.takeOutput, ← Array.foldl_toList]
  rw [hend, (hbuilt.onUnits hunits hmid).1.built.assembler]
  exact hb.congr b.assembler.record_commit

/-- A run takes tokens that cover text, and puts them on record. -/
theorem Runs.run_apart {fuel : Nat} (h : Runs cs l taken b) (hb : Apart taken b)
    (hfuel : b.lexer.tokensLeft < fuel) :
    ∃ taken', Ended cs l taken' (Builder.run fuel b) ∧ (∀ t ∈ taken', t.Covers) ∧
      (Builder.run fuel b).assembler.Records taken' := by
  induction fuel generalizing b taken with
  | zero => omega
  | succ fuel ih =>
    obtain ⟨floor, m, p, -, -, hstands⟩ := h.stands
    have hpull := hstands.built.tracks.pull
    have hcovers := hstands.built.tracks.pull_coversText hb.lexer
    have hloc : b.lexer.pull.2.locator = l :=
      (Lexer.pull_locator _).trans hstands.built.locator.2
    generalize hhanded : b.lexer.pull = handed at hpull hloc hcovers
    cases hpull with
    | @token t x hx hlt hc =>
      have hat : t.kind.closesTag = true → x.AtContent := fun hk =>
        (hc hk).2.2.atContent (hc hk).1
      obtain ⟨hruns, hstays⟩ := h.token hx hloc hat
      have htake := h.take_apart hx hloc hat hb (hcovers.1 t rfl) hcovers.2
      rw [Builder.run_token hhanded]
      refine ih hruns htake ?_
      have htokens : (b.take t x).lexer.tokensLeft = x.tokensLeft := hstays.tokensLeft
      omega
    | @ended x hx hf hr =>
      rw [Builder.run_atEnd hhanded]
      exact ⟨taken, h.ended hx hloc hf hr, hb.covers, h.atEnd_records hx hloc hf hr hb.records⟩

end

/-! ## Streams -/

/-- The tokens of a stream follow each other. -/
theorem Stream.inOrder {cs : List Char} {l : Locator} {gap : Nat → Prop} {ts : List Token} {m : Mode}
    {p : Nat} (h : Stream cs l gap ts m p) :
    InOrder (l.host 0) (ts.map fun t => t.extent.span) (l.host p) := by
  induction h with
  | nil => exact Nat.le_refl _
  | snoc h ht ih =>
    rw [List.map_append, List.map_singleton, InOrder.snoc_iff]
    exact ⟨ih.mono (Nat.le_refl _) (Nat.add_le_add_left ht.le_start _),
      Nat.add_le_add_left ht.start_le _, Nat.le_refl _⟩

namespace Template

/-- The tokens and the comments together, by the offsets that they start at. -/
def pieces (t : Template) : List Token :=
  (t.tokens.toList ++ t.comments.toList).mergeSort fun a b =>
    a.extent.span.start ≤ b.extent.span.start

theorem pieces_sorted (t : Template) :
    t.pieces.Pairwise fun a b => a.extent.span.start ≤ b.extent.span.start := by
  have htrans : ∀ a b c : Token, decide (a.extent.span.start ≤ b.extent.span.start) = true →
      decide (b.extent.span.start ≤ c.extent.span.start) = true →
        decide (a.extent.span.start ≤ c.extent.span.start) = true := by
    simp only [decide_eq_true_eq]
    exact fun a b c => Nat.le_trans
  have htotal : ∀ a b : Token, (decide (a.extent.span.start ≤ b.extent.span.start) ||
      decide (b.extent.span.start ≤ a.extent.span.start)) = true := by
    simp only [Bool.or_eq_true, decide_eq_true_eq]
    exact fun a b => Nat.le_total ..
  exact (List.pairwise_mergeSort htrans htotal (t.tokens.toList ++ t.comments.toList)).imp
    of_decide_eq_true

variable (text : String) (o : Options)

/-- The tokens and the comments of a template are the tokens of a stream that cover text. -/
theorem exists_stream : ∃ taken m p,
    Stream text.toList (locatorOf text o) (builderOf text o).lexer.HasGap taken m p ∧
      (∀ t ∈ taken, t.Covers) ∧
      (parse text o).tokens.toList = taken.filter (fun t => !t.kind.isComment) ∧
      (parse text o).comments.toList = taken.filter fun t => t.kind.isComment := by
  have hstart : Apart [] (Builder.ofChars text.toList (locatorOf text o) o.tracing) :=
    ⟨by simp, Lexer.coversText_start _ _ _, rfl, rfl⟩
  obtain ⟨taken, hended, hcovers, hrecords⟩ := (Runs.start text.toList o.origin o.tracing).run_apart
    hstart (Builder.tokensLeft_ofChars text.toList o.origin o.tracing)
  have hwhole : Whole text.toList (locatorOf text o) taken (builderOf text o) := hended.finish
  have hassembler : (builderOf text o).assembler.Records taken := by
    unfold builderOf
    rw [Builder.placeRoot_closeAll_assembler]
    exact hrecords
  obtain ⟨m, p, hstream⟩ := hwhole.tracks.stream
  rw [hwhole.locator] at hstream
  refine ⟨taken, m, p, hstream, hcovers, ?_, ?_⟩
  · simp only [parse_eq, outlineOf_eq]
    exact hassembler.tokens
  · simp only [parse_eq, outlineOf_eq]
    exact hassembler.comments

/-- The tokens and the comments are disjoint pieces of the text, none of which is empty, and both
lists are in the order of the text. -/
structure PiecesApart (t : Template) (o : Origin) (size : Nat) : Prop where
  within : ∀ x ∈ t.pieces, o.offset ≤ x.extent.span.start ∧
    x.extent.span.start < x.extent.span.stop ∧ x.extent.span.stop ≤ o.offset + size
  disjoint : t.pieces.Pairwise fun x y => x.extent.span.stop ≤ y.extent.span.start
  tokens : t.tokens.toList.Pairwise fun x y => x.extent.span.start < y.extent.span.start
  comments : t.comments.toList.Pairwise fun x y => x.extent.span.start < y.extent.span.start

/-- Two lists that a list of tokens in order falls into are pieces of the text. -/
theorem PiecesApart.ofFilter {t : Template} {o : Origin} {size : Nat} {taken : List Token}
    (hin : InOrder o.offset (taken.map fun x => x.extent.span) (o.offset + size))
    (hcovers : ∀ x ∈ taken, x.Covers)
    (htokens : t.tokens.toList = taken.filter fun x => !x.kind.isComment)
    (hcomments : t.comments.toList = taken.filter fun x => x.kind.isComment) :
    t.PiecesApart o size := by
  have hperm : t.pieces.Perm taken := by
    refine (List.mergeSort_perm _ _).trans ?_
    rw [htokens, hcomments]
    exact List.perm_append_comm.trans
      (List.filter_append_perm (fun x : Token => x.kind.isComment) taken)
  have hpairs : taken.Pairwise fun x y => x.extent.span.stop ≤ y.extent.span.start :=
    List.pairwise_map.1 hin.pairwise
  have hstarts : taken.Pairwise fun x y => x.extent.span.start < y.extent.span.start :=
    hpairs.imp_of_mem fun hx _ hle => Nat.lt_of_lt_of_le (hcovers _ hx) hle
  refine ⟨fun x hx => ?_, ?_, ?_, ?_⟩
  · have hmem := hperm.mem_iff.1 hx
    obtain ⟨hlo, -, hhi⟩ := hin.of_mem (List.mem_map_of_mem hmem)
    exact ⟨hlo, hcovers x hmem, hhi⟩
  · -- apart in either order, and sorted by the start
    have happart : t.pieces.Pairwise fun x y => x.extent.span.stop ≤ y.extent.span.start ∨
        y.extent.span.stop ≤ x.extent.span.start :=
      (hperm.pairwise_iff fun h => h.symm).2 (hpairs.imp .inl)
    refine (happart.and t.pieces_sorted).imp_of_mem fun {x y} _ hy h => ?_
    have hcover : y.extent.span.start < y.extent.span.stop := hcovers y (hperm.mem_iff.1 hy)
    omega
  · rw [htokens]
    exact hstarts.filter _
  · rw [hcomments]
    exact hstarts.filter _

theorem mem_pieces {t : Template} {x : Token} : x ∈ t.pieces ↔ x ∈ t.tokens ∨ x ∈ t.comments := by
  rw [pieces, List.mem_mergeSort, List.mem_append, Array.mem_toList_iff, Array.mem_toList_iff]

/-- Two pieces of a text that overlap are the same. -/
theorem PiecesApart.eq_of_overlap {t : Template} {o : Origin} {size : Nat} {x y : Token}
    (h : t.PiecesApart o size) (hx : x ∈ t.pieces) (hy : y ∈ t.pieces)
    (hxy : x.extent.span.start < y.extent.span.stop) (hyx : y.extent.span.start < x.extent.span.stop) :
    x = y := by
  have hdisjoint : t.pieces.Pairwise fun a b => a.extent.span.stop ≤ b.extent.span.start ∨
      b.extent.span.stop ≤ a.extent.span.start := h.disjoint.imp .inl
  by_contra hne
  have hsymm : Std.Symm fun a b : Token => a.extent.span.stop ≤ b.extent.span.start ∨
      b.extent.span.stop ≤ a.extent.span.start := ⟨fun _ _ => Or.symm⟩
  rcases hdisjoint.forall hx hy hne with hlt | hlt <;> omega

/-- Whatever reads the embedded texts, the tokens and the comments are disjoint pieces of the text. -/
theorem outline_piecesApart (reader : Script.Reader) :
    (parse text o reader).PiecesApart o.origin (byteLength text.toList) := by
  obtain ⟨taken, m, p, hstream, hcovers, htokens, hcomments⟩ := exists_stream text o
  rw [parse_eq] at htokens hcomments ⊢
  refine .ofFilter (hstream.inOrder.mono ?_ ?_) hcovers htokens hcomments
  · exact Nat.le_add_right _ _
  · exact Nat.add_le_add_left hstream.le_size _

/-- The tokens and the comments of a template are disjoint pieces of its text, none of which is
empty, and both lists are in the order of the text. -/
theorem parse_piecesApart (reader : Script.Reader) :
    (parse text o reader).PiecesApart o.origin (byteLength text.toList) :=
  outline_piecesApart text o reader

end Template

end TemplateSyntax
