import TemplateSyntax.Proofs.BoundNames
import TemplateSyntax.Proofs.ScriptMoved
import TemplateSyntax.Proofs.ScriptStretch
import TemplateSyntax.Proofs.SpanOrder
import TemplateSyntax.Script.Parser

/-! # What is relied on of a reader

What reads scripts is not part of the reading of templates, and any reader will do that is faithful to its
text: the syntax that it gives stands in the text, name by name and bracket by bracket.  This is said here
of the three shapes of scripts that fragments are taken from, a call of a number, a function behind `void`
and a loop over a list, and of no others.  Nothing is said of which texts a reader takes. -/

namespace TemplateSyntax.Script

open Text (Between From byteLength)

variable {cs raw rest tail : List Char} {c d : Char} {i j k lo lo' hi hi' mid : Nat} {id : Ident}

/-! ## Blanks and comments -/

/-- Blanks and comments.  A comment of a line may also start as one of markup does, or as the end of one,
and a comment that reaches over lines is closed. -/
inductive Trivia : List Char → Prop
  | nil : Trivia []
  | blank {c : Char} {raw : List Char}
    (hc : Lexeme.isSpace c = true ∨ Lexeme.isLineBreak c = true) (h : Trivia raw) : Trivia (c :: raw)
  | line {mark text raw : List Char}
    (hmark : mark ∈ ["//".toList, "<!--".toList, "-->".toList])
    (htext : ∀ c ∈ text, Lexeme.isLineBreak c = false) (h : Trivia raw) : Trivia (mark ++ (text ++ raw))
  | block {text raw : List Char} (h : Trivia raw) :
    Trivia ("/*".toList ++ (text ++ ("*/".toList ++ raw)))

/-- The character is neither blank nor the first of a comment. -/
structure IsSolid (c : Char) : Prop where
  space : Lexeme.isSpace c = false
  lineBreak : Lexeme.isLineBreak c = false
  comment : c ∉ ['/', '<', '-']

theorem Trivia.not_solid (h : Trivia (c :: raw)) : ¬ IsSolid c := by
  rintro ⟨hspace, hbreak, hcomment⟩
  generalize hraw : c :: raw = cs at h
  cases h with
  | nil => exact absurd hraw (List.cons_ne_nil _ _)
  | blank hc h =>
    obtain ⟨rfl, -⟩ := List.cons.inj hraw
    simp [hspace, hbreak] at hc
  | line hmark htext h =>
    simp only [List.mem_cons, List.not_mem_nil, or_false] at hmark
    rcases hmark with rfl | rfl | rfl <;> exact hcomment ((List.cons.inj hraw).1 ▸ by decide)
  | block h => exact hcomment ((List.cons.inj hraw).1 ▸ by decide)

/-- No comment of a line hides what stands on the next line. -/
theorem Trivia.not_endsBy (h : Trivia raw) (hspace : Lexeme.isSpace c = false)
    (hbreak : Lexeme.isLineBreak c = false) : raw ≠ [c] ∧ ¬ ['\n', c] <:+ raw := by
  -- what stands in front of the last character is a line break, and so no part of a comment of a line
  have hfront : ∀ {front raw : List Char}, '\n' ∉ front → 2 ≤ front.length →
      raw ≠ [c] ∧ ¬ ['\n', c] <:+ raw → front ++ raw ≠ [c] ∧ ¬ ['\n', c] <:+ front ++ raw := by
    intro front raw hno hlen ih
    refine ⟨fun heq => ?_, fun hends => ?_⟩
    · have hsize := congrArg List.length heq
      rw [List.length_append, List.length_singleton] at hsize
      omega
    · rcases List.suffix_or_suffix_of_suffix hends (List.suffix_append front raw) with hin | hout
      · exact ih.2 hin
      · rcases List.suffix_cons_iff.1 hout with rfl | hlast
        · exact ih.2 (List.suffix_refl _)
        rcases List.suffix_cons_iff.1 hlast with rfl | hnil
        · exact ih.1 rfl
        obtain rfl := List.suffix_nil.1 hnil
        rw [List.append_nil] at hends
        exact hno (hends.subset (by simp))
  induction h with
  | nil => exact ⟨by simp, fun h => absurd (List.suffix_nil.1 h) (by simp)⟩
  | @blank d raw hd h ih =>
    refine ⟨fun heq => ?_, fun hends => ?_⟩
    · obtain ⟨rfl, -⟩ := List.cons.inj heq
      simp [hspace, hbreak] at hd
    · rcases List.suffix_cons_iff.1 hends with heq | hraw
      · exact ih.1 (List.cons.inj heq).2.symm
      · exact ih.2 hraw
  | @line mark text raw hmark htext h ih =>
    rw [← List.append_assoc]
    have hmark' : '\n' ∉ mark ∧ 2 ≤ mark.length := by
      simp only [List.mem_cons, List.not_mem_nil, or_false] at hmark
      rcases hmark with rfl | rfl | rfl <;> decide
    have htext' : '\n' ∉ text := fun hmem => absurd (htext _ hmem) (by decide)
    refine hfront ?_ ?_ ih
    · simp [hmark'.1, htext']
    · rw [List.length_append]
      omega
  | @block text raw h ih =>
    refine ⟨by simp, fun hends => ?_⟩
    have hends : ['\n', c] <:+ ("/*".toList ++ text) ++ ("*/".toList ++ raw) := by
      rwa [List.append_assoc]
    rcases List.suffix_or_suffix_of_suffix hends (List.suffix_append _ _) with hin | hout
    · exact (hfront (by decide) (by decide) ih).2 hin
    · have hlen : ('*' :: '/' :: raw).length ≤ 2 := hout.length_le
      obtain rfl : raw = [] := List.length_eq_zero_iff.1 (by simpa using hlen)
      exact absurd (hout.eq_of_length rfl) (by simp)

/-- Nothing but blanks and comments stands between two places. -/
def Gap (cs : List Char) (i j : Nat) : Prop := ∃ raw, Between cs i raw j ∧ Trivia raw

/-- The character stands at a place. -/
def CharAt (cs : List Char) (i : Nat) (c : Char) : Prop := ∃ tail, From cs i (c :: tail)

namespace Gap

theorem le (h : Gap cs i j) : i ≤ j := by
  obtain ⟨raw, hin, -⟩ := h
  exact hin.le

theorem refl (h : From cs i tail) : Gap cs i i := ⟨[], h.between_nil, .nil⟩

/-- There is no gap in front of what is neither blank nor a comment. -/
theorem eq_of_solid (h : Gap cs i j) (hfrom : From cs i (c :: tail)) (hc : IsSolid c) : j = i := by
  obtain ⟨raw, ⟨rfl, post, hraw⟩, htrivia⟩ := h
  cases raw with
  | nil => rfl
  | cons d raw =>
    obtain ⟨rfl, -⟩ := List.cons.inj (hfrom.unique hraw)
    exact absurd hc htrivia.not_solid

/-- What a gap leaves of a text behind its first blank is a gap, or nothing is taken. -/
theorem of_blank (h : Gap cs i j) (hfrom : From cs i (c :: tail))
    (hc : c ∉ ['/', '<', '-']) : j = i ∨ Gap cs (i + c.utf8Size) j := by
  obtain ⟨raw, ⟨rfl, post, hraw⟩, htrivia⟩ := h
  cases htrivia with
  | nil => exact .inl rfl
  | @blank d raw _ h =>
    obtain ⟨rfl, rfl⟩ := List.cons.inj (hfrom.unique hraw)
    refine .inr ⟨raw, ⟨?_, post, hfrom.cons⟩, h⟩
    rw [Text.byteLength_cons, Nat.add_assoc]
  | line hmark _ _ =>
    simp only [List.mem_cons, List.not_mem_nil, or_false] at hmark
    rcases hmark with rfl | rfl | rfl <;>
      exact absurd ((List.cons.inj (hfrom.unique hraw)).1 ▸ by decide) hc
  | block _ => exact absurd ((List.cons.inj (hfrom.unique hraw)).1 ▸ by decide) hc

/-- A gap at the end of a text leaves the last character, where that is on a line of its own and neither
blank nor part of a comment. -/
theorem eq_size (h : Gap cs i (byteLength cs)) (hends : ['\n', c] <:+ cs)
    (hspace : Lexeme.isSpace c = false) (hbreak : Lexeme.isLineBreak c = false) : i = byteLength cs := by
  obtain ⟨raw, ⟨hsize, post, hfrom⟩, htrivia⟩ := h
  have hpost : post = [] := by
    have hle := hfrom.size
    rw [Text.byteLength_append] at hle
    exact Text.byteLength_eq_zero.1 (by omega)
  rw [hpost, List.append_nil] at hfrom
  obtain ⟨front, hcs, -⟩ := hfrom
  obtain ⟨hone, hmore⟩ := htrivia.not_endsBy hspace hbreak
  rcases List.suffix_or_suffix_of_suffix hends ⟨front, hcs.symm⟩ with hin | hout
  · exact absurd hin hmore
  rcases List.suffix_cons_iff.1 hout with rfl | hlast
  · exact absurd (List.suffix_refl _) hmore
  rcases List.suffix_cons_iff.1 hlast with rfl | hnil
  · exact absurd rfl hone
  · rw [List.suffix_nil.1 hnil, Text.byteLength_nil, Nat.add_zero] at hsize
    exact hsize.symm

end Gap

/-! ## Names between two places -/

/-- The identifiers of what was read are words of the text between two places. -/
def Words {α : Type} [HasIdents α] (cs : List Char) (a : α) (lo hi : Nat) : Prop :=
  ∃ mid, lo ≤ mid ∧ mid ≤ hi ∧ (⟨cs, lo, mid⟩ : Stretch).All a

theorem Words.mono {α : Type} [HasIdents α] {a : α} (h : Words cs a lo hi) (hle : hi ≤ hi') :
    Words cs a lo hi' := by
  obtain ⟨mid, hlo, hmid, hall⟩ := h
  exact ⟨mid, hlo, Nat.le_trans hmid hle, hall⟩

theorem Words.le {α : Type} [HasIdents α] {a : α} (h : Words cs a lo hi) : lo ≤ hi := by
  obtain ⟨mid, hlo, hmid, -⟩ := h
  exact Nat.le_trans hlo hmid

theorem Stretch.Named.le (h : Stretch.Named ⟨cs, lo, hi⟩ id) : lo ≤ hi :=
  Nat.le_trans h.lo (Nat.le_trans (Nat.le_of_lt h.start_lt_stop) h.hi)

theorem Stretch.Named.mono (h : Stretch.Named ⟨cs, lo, hi⟩ id) (hlo : lo' ≤ lo) (hhi : hi ≤ hi') :
    Stretch.Named ⟨cs, lo', hi'⟩ id :=
  ⟨Nat.le_trans hlo h.lo, Nat.le_trans h.hi hhi, h.spelled⟩

mutual

/-- The pattern is made of names, and its parts stand in the text one behind the other, from one place up
to another. -/
def Pat.Stands (cs : List Char) : Pat → Nat → Nat → Prop
  | .ident id _, lo, hi => Stretch.Named ⟨cs, lo, hi⟩ id
  | .array _ elements, lo, hi => patsStand cs elements lo hi
  | .rest _ argument, lo, hi => argument.Stands cs lo hi
  | .object _ properties, lo, hi => patPropertiesStand cs properties lo hi
  | .withDefault _ left right, lo, hi => ∃ mid, left.Stands cs lo mid ∧ Words cs right mid hi
  | .expr _, _, _ => False
  | .hole, lo, hi => lo ≤ hi

/-- Patterns stand in the text one behind the other. -/
def patsStand (cs : List Char) : List Pat → Nat → Nat → Prop
  | [], lo, hi => lo ≤ hi
  | p :: ps, lo, hi => ∃ mid, p.Stands cs lo mid ∧ patsStand cs ps mid hi

/-- The parts of a property of a pattern stand in the text one behind the other. -/
def PatProperty.Stands (cs : List Char) : PatProperty → Nat → Nat → Prop
  | .keyValue key value, lo, hi => ∃ mid, Words cs key lo mid ∧ value.Stands cs mid hi
  | .shorthand id, lo, hi => Stretch.Named ⟨cs, lo, hi⟩ id
  | .shorthandDefault id value, lo, hi =>
    ∃ mid, Stretch.Named ⟨cs, lo, mid⟩ id ∧ Words cs value mid hi
  | .rest argument, lo, hi => argument.Stands cs lo hi

/-- Properties of a pattern stand in the text one behind the other. -/
def patPropertiesStand (cs : List Char) : List PatProperty → Nat → Nat → Prop
  | [], lo, hi => lo ≤ hi
  | p :: ps, lo, hi => ∃ mid, p.Stands cs lo mid ∧ patPropertiesStand cs ps mid hi

end

/-- Patterns stand from a place up to a bracket. -/
def StandUpTo (cs : List Char) (pats : List Pat) (lo : Nat) (close : Char) : Prop :=
  ∃ k, patsStand cs pats lo k ∧ CharAt cs k close

/-! ## Faithful readers -/

/-- Nothing follows in the script, or only a semicolon. -/
def IsLast (cs : List Char) (i : Nat) : Prop :=
  Gap cs i (byteLength cs) ∨ ∃ k, Gap cs i k ∧ CharAt cs k ';' ∧ Gap cs (k + 1) (byteLength cs)

/-- A text that ends with a character on a line of its own, which is no semicolon and neither blank nor part
of a comment, is over only behind that. -/
theorem IsLast.eq_size (h : IsLast cs i) (hends : ['\n', c] <:+ cs) (hspace : Lexeme.isSpace c = false)
    (hbreak : Lexeme.isLineBreak c = false) (hsemicolon : c ≠ ';') : i = byteLength cs := by
  rcases h with hgap | ⟨k, -, ⟨tail, hfrom⟩, hgap⟩
  · exact hgap.eq_size hends hspace hbreak
  · have hk := hgap.eq_size hends hspace hbreak
    have hsize := hfrom.cons.size
    obtain rfl : tail = [] := Text.byteLength_eq_zero.1 (by
      rw [show (';' : Char).utf8Size = 1 from rfl] at hsize
      omega)
    obtain ⟨front, rfl, -⟩ := hfrom
    obtain ⟨front', hcs⟩ := hends
    have hlast := congrArg List.getLast? hcs
    simp only [List.getLast?_append, List.getLast?_cons_cons, List.getLast?_singleton,
      Option.some_or] at hlast
    exact absurd (Option.some.inj hlast) hsemicolon

/-- There is nothing in the script but the expression at the span, maybe with a semicolon behind it. -/
structure IsAlone (cs : List Char) (s : Span) : Prop where
  front : Gap cs 0 s.start
  back : IsLast cs s.stop

/-- The text of a call of a number.  The call starts at the number, in which there is no parenthesis.
What stands between the number and the arguments are the types, if there are such. -/
structure CallOfNumber (cs : List Char) (span number : Span) (args : List Arg) (types : List Expr) :
    Prop where
  alone : IsAlone cs span
  start : span.start = number.start
  callee : ∃ raw, Between cs number.start raw number.stop ∧ raw ≠ [] ∧ '(' ∉ raw
  arguments : ∃ raw openAt close, Between cs number.stop raw openAt ∧ raw.head? ≠ some '(' ∧
    (raw = [] → types = []) ∧ CharAt cs openAt '(' ∧ CharAt cs close ')' ∧ close + 1 = span.stop ∧
    Words cs args (openAt + 1) close

/-- The parameter of the function of an event, at an index. -/
def eventParameter (i : Nat) : Pat := .ident ⟨"$event", ⟨i, i + 6⟩⟩ ⟨i, i + 6⟩

/-- The text of a function behind `void`.  Where its parameters follow the word at once, they stand
between the parentheses, and where there is one of them, a name, and no type, the body follows. -/
structure VoidFunction (cs : List Char) (span fn : Span) (name : Option Ident) (params : List Pat)
    (body : List Stmt) : Prop where
  alone : IsAlone cs span
  word : Gap cs (span.start + 4) fn.start
  start : ∃ tail, From cs fn.start ("function".toList ++ tail) ∨ From cs fn.start ("async".toList ++ tail)
  stop : fn.stop = span.stop
  parameters : ∀ tail, From cs fn.start ("function(".toList ++ tail) →
    StandUpTo cs params (fn.start + 9) ')'
  body : ∀ tail, From cs fn.start ("function($event)\x7b".toList ++ tail) →
    name = none ∧ params = [eventParameter (fn.start + 9)] ∧
    ∃ close, CharAt cs close '\x7d' ∧ close + 1 = fn.stop ∧ Words cs body (fn.start + 17) close

/-- What the reader gives for a script that starts like one of the wrappings of fragments stands in the
text. -/
structure Reader.Faithful (reader : Reader) : Prop where
  call : ∀ {lang rest s span number args types},
    reader lang ("0(".toList ++ rest) = .ok [.expr s (.call span (.number number) args types)] →
      CallOfNumber ("0(".toList ++ rest) span number args types
  function : ∀ {lang rest s span fn name params body},
    reader lang ("void function(".toList ++ rest) =
      .ok [.expr s (.unary span true (.fn fn name (.mk params body)))] →
        VoidFunction ("void function(".toList ++ rest) span fn name params body
  /-- The elements of the list that a loop declares stand between its brackets. -/
  loop : ∀ {lang rest s isVar list elements init declarators right body},
    reader lang ("for(let [".toList ++ rest) = .ok [.forEach .forOf s
      (.declaration isVar (.mk (.array list elements) init :: declarators)) right body] →
        StandUpTo ("for(let [".toList ++ rest) elements 9 ']'

/-! ## What follows of patterns -/

mutual

theorem Pat.Stands.mono : ∀ {p : Pat} {lo hi hi' : Nat}, p.Stands cs lo hi → hi ≤ hi' → p.Stands cs lo hi'
  | .ident _ _, _, _, _, h, hle => by
    rw [Pat.Stands] at h ⊢
    exact h.mono (Nat.le_refl _) hle
  | .array _ _, _, _, _, h, hle => by
    rw [Pat.Stands] at h ⊢
    exact patsStand_mono h hle
  | .rest _ argument, _, _, _, h, hle => by
    rw [Pat.Stands] at h ⊢
    exact Pat.Stands.mono h hle
  | .object _ _, _, _, _, h, hle => by
    rw [Pat.Stands] at h ⊢
    exact patPropertiesStand_mono h hle
  | .withDefault _ _ _, _, _, _, h, hle => by
    rw [Pat.Stands] at h ⊢
    obtain ⟨mid, hleft, hright⟩ := h
    exact ⟨mid, hleft, hright.mono hle⟩
  | .expr _, _, _, _, h, _ => by
    rw [Pat.Stands] at h
    exact h.elim
  | .hole, _, _, _, h, hle => by
    rw [Pat.Stands] at h ⊢
    exact Nat.le_trans h hle

theorem patsStand_mono : ∀ {ps : List Pat} {lo hi hi' : Nat}, patsStand cs ps lo hi → hi ≤ hi' →
    patsStand cs ps lo hi'
  | [], _, _, _, h, hle => by
    rw [patsStand] at h ⊢
    exact Nat.le_trans h hle
  | _ :: _, _, _, _, h, hle => by
    rw [patsStand] at h ⊢
    obtain ⟨mid, hp, hps⟩ := h
    exact ⟨mid, hp, patsStand_mono hps hle⟩

theorem PatProperty.Stands.mono : ∀ {p : PatProperty} {lo hi hi' : Nat}, p.Stands cs lo hi → hi ≤ hi' →
    p.Stands cs lo hi'
  | .keyValue _ _, _, _, _, h, hle => by
    rw [PatProperty.Stands] at h ⊢
    obtain ⟨mid, hkey, hvalue⟩ := h
    exact ⟨mid, hkey, Pat.Stands.mono hvalue hle⟩
  | .shorthand _, _, _, _, h, hle => by
    rw [PatProperty.Stands] at h ⊢
    exact h.mono (Nat.le_refl _) hle
  | .shorthandDefault _ _, _, _, _, h, hle => by
    rw [PatProperty.Stands] at h ⊢
    obtain ⟨mid, hid, hvalue⟩ := h
    exact ⟨mid, hid, hvalue.mono hle⟩
  | .rest _, _, _, _, h, hle => by
    rw [PatProperty.Stands] at h ⊢
    exact Pat.Stands.mono h hle

theorem patPropertiesStand_mono : ∀ {ps : List PatProperty} {lo hi hi' : Nat},
    patPropertiesStand cs ps lo hi → hi ≤ hi' → patPropertiesStand cs ps lo hi'
  | [], _, _, _, h, hle => by
    rw [patPropertiesStand] at h ⊢
    exact Nat.le_trans h hle
  | _ :: _, _, _, _, h, hle => by
    rw [patPropertiesStand] at h ⊢
    obtain ⟨mid, hp, hps⟩ := h
    exact ⟨mid, hp, patPropertiesStand_mono hps hle⟩

end

mutual

theorem Pat.Stands.inOrder : ∀ {p : Pat} {lo hi : Nat}, p.Stands cs lo hi →
    InOrder lo (p.bound.map Ident.span) hi
  | .ident id _, lo, hi, h => by
    rw [Pat.Stands] at h
    rw [Pat.bound, List.map_singleton]
    exact ⟨h.lo, Nat.le_of_lt h.start_lt_stop, h.hi⟩
  | .array _ _, _, _, h => by
    rw [Pat.Stands] at h
    rw [Pat.bound]
    exact patsStand_inOrder h
  | .rest _ _, _, _, h => by
    rw [Pat.Stands] at h
    rw [Pat.bound]
    exact Pat.Stands.inOrder h
  | .object _ _, _, _, h => by
    rw [Pat.Stands] at h
    rw [Pat.bound]
    exact patPropertiesStand_inOrder h
  | .withDefault _ _ _, _, _, h => by
    rw [Pat.Stands] at h
    obtain ⟨mid, hleft, hright⟩ := h
    rw [Pat.bound]
    exact (Pat.Stands.inOrder hleft).mono (Nat.le_refl _) hright.le
  | .expr _, _, _, h => by
    rw [Pat.Stands] at h
    exact h.elim
  | .hole, _, _, h => by
    rw [Pat.Stands] at h
    rw [Pat.bound]
    exact h

/-- The names that patterns bind stand in the text in the order in which they are listed. -/
theorem patsStand_inOrder : ∀ {ps : List Pat} {lo hi : Nat}, patsStand cs ps lo hi →
    InOrder lo ((boundByPats ps).map Ident.span) hi
  | [], _, _, h => by
    rw [patsStand] at h
    rw [boundByPats]
    exact h
  | _ :: _, _, _, h => by
    rw [patsStand] at h
    obtain ⟨mid, hp, hps⟩ := h
    rw [boundByPats, List.map_append]
    exact (Pat.Stands.inOrder hp).append (patsStand_inOrder hps)

theorem PatProperty.Stands.inOrder : ∀ {p : PatProperty} {lo hi : Nat}, p.Stands cs lo hi →
    InOrder lo (p.bound.map Ident.span) hi
  | .keyValue _ _, _, _, h => by
    rw [PatProperty.Stands] at h
    obtain ⟨mid, hkey, hvalue⟩ := h
    rw [PatProperty.bound]
    exact (Pat.Stands.inOrder hvalue).mono hkey.le (Nat.le_refl _)
  | .shorthand _, _, _, h => by
    rw [PatProperty.Stands] at h
    rw [PatProperty.bound, List.map_singleton]
    exact ⟨h.lo, Nat.le_of_lt h.start_lt_stop, h.hi⟩
  | .shorthandDefault _ _, _, _, h => by
    rw [PatProperty.Stands] at h
    obtain ⟨mid, hid, hvalue⟩ := h
    rw [PatProperty.bound, List.map_singleton]
    exact ⟨hid.lo, Nat.le_of_lt hid.start_lt_stop, Nat.le_trans hid.hi hvalue.le⟩
  | .rest _, _, _, h => by
    rw [PatProperty.Stands] at h
    rw [PatProperty.bound]
    exact Pat.Stands.inOrder h

theorem patPropertiesStand_inOrder : ∀ {ps : List PatProperty} {lo hi : Nat},
    patPropertiesStand cs ps lo hi → InOrder lo ((boundByProperties ps).map Ident.span) hi
  | [], _, _, h => by
    rw [patPropertiesStand] at h
    rw [boundByProperties]
    exact h
  | _ :: _, _, _, h => by
    rw [patPropertiesStand] at h
    obtain ⟨mid, hp, hps⟩ := h
    rw [boundByProperties, List.map_append]
    exact (PatProperty.Stands.inOrder hp).append (patPropertiesStand_inOrder hps)

end

theorem Pat.Stands.le {p : Pat} (h : p.Stands cs lo hi) : lo ≤ hi := InOrder.le h.inOrder

theorem patsStand_le {ps : List Pat} (h : patsStand cs ps lo hi) : lo ≤ hi :=
  InOrder.le (patsStand_inOrder h)

theorem PatProperty.Stands.le {p : PatProperty} (h : p.Stands cs lo hi) : lo ≤ hi := InOrder.le h.inOrder

theorem patPropertiesStand_le {ps : List PatProperty} (h : patPropertiesStand cs ps lo hi) : lo ≤ hi :=
  InOrder.le (patPropertiesStand_inOrder h)

mutual

theorem Pat.Stands.isBinding : ∀ {p : Pat} {lo hi : Nat}, p.Stands cs lo hi → p.isBinding = true
  | .ident _ _, _, _, _ => by rw [Pat.isBinding]
  | .array _ _, _, _, h => by
    rw [Pat.Stands] at h
    rw [Pat.isBinding]
    exact areBindings_of_stand h
  | .rest _ _, _, _, h => by
    rw [Pat.Stands] at h
    rw [Pat.isBinding]
    exact Pat.Stands.isBinding h
  | .object _ _, _, _, h => by
    rw [Pat.Stands] at h
    rw [Pat.isBinding]
    exact areBindingProperties_of_stand h
  | .withDefault _ _ _, _, _, h => by
    rw [Pat.Stands] at h
    obtain ⟨mid, hleft, -⟩ := h
    rw [Pat.isBinding]
    exact Pat.Stands.isBinding hleft
  | .expr _, _, _, h => by
    rw [Pat.Stands] at h
    exact h.elim
  | .hole, _, _, _ => by rw [Pat.isBinding]

/-- Nothing is assigned to in patterns that stand in a text. -/
theorem areBindings_of_stand : ∀ {ps : List Pat} {lo hi : Nat}, patsStand cs ps lo hi →
    areBindings ps = true
  | [], _, _, _ => by rw [areBindings]
  | _ :: _, _, _, h => by
    rw [patsStand] at h
    obtain ⟨mid, hp, hps⟩ := h
    rw [areBindings, Pat.Stands.isBinding hp, areBindings_of_stand hps, Bool.and_self]

theorem PatProperty.Stands.isBinding : ∀ {p : PatProperty} {lo hi : Nat}, p.Stands cs lo hi →
    p.isBinding = true
  | .keyValue _ _, _, _, h => by
    rw [PatProperty.Stands] at h
    obtain ⟨mid, -, hvalue⟩ := h
    rw [PatProperty.isBinding]
    exact Pat.Stands.isBinding hvalue
  | .shorthand _, _, _, _ => by rw [PatProperty.isBinding]
  | .shorthandDefault _ _, _, _, _ => by rw [PatProperty.isBinding]
  | .rest _, _, _, h => by
    rw [PatProperty.Stands] at h
    rw [PatProperty.isBinding]
    exact Pat.Stands.isBinding h

theorem areBindingProperties_of_stand : ∀ {ps : List PatProperty} {lo hi : Nat},
    patPropertiesStand cs ps lo hi → areBindingProperties ps = true
  | [], _, _, _ => by rw [areBindingProperties]
  | _ :: _, _, _, h => by
    rw [patPropertiesStand] at h
    obtain ⟨mid, hp, hps⟩ := h
    rw [areBindingProperties, PatProperty.Stands.isBinding hp, areBindingProperties_of_stand hps,
      Bool.and_self]

end

/-! ## What follows of names -/

section

variable {f : Nat → Nat} {P : Ident → Prop}

/-- What holds of the words between two places, at their places in another text, holds of the identifiers
of what stands between the two. -/
theorem Words.expr_map {e : Expr} (h : Words cs e lo hi)
    (hP : ∀ id, Stretch.Named ⟨cs, lo, hi⟩ id → P (id.map f)) : (e.map f).All P := by
  obtain ⟨mid, -, hmid, hall⟩ := h
  exact Expr.all_map (fun id hid => hP id (hid.mono (Nat.le_refl _) hmid)) e hall

theorem Words.key_map {key : Key} (h : Words cs key lo hi)
    (hP : ∀ id, Stretch.Named ⟨cs, lo, hi⟩ id → P (id.map f)) : (key.map f).All P := by
  obtain ⟨mid, -, hmid, hall⟩ := h
  exact Key.all_map (fun id hid => hP id (hid.mono (Nat.le_refl _) hmid)) key hall

theorem Words.stmts_map {body : List Stmt} (h : Words cs body lo hi)
    (hP : ∀ id, Stretch.Named ⟨cs, lo, hi⟩ id → P (id.map f)) : stmtsAll P (mapStmts f body) := by
  obtain ⟨mid, -, hmid, hall⟩ := h
  exact stmtsAll_map (fun id hid => hP id (hid.mono (Nat.le_refl _) hmid)) body (stmtsAll_iff.2 hall)

mutual

theorem Pat.Stands.all_map : ∀ {p : Pat} {lo hi : Nat}, p.Stands cs lo hi →
    (∀ id, Stretch.Named ⟨cs, lo, hi⟩ id → P (id.map f)) → (p.map f).All P
  | .ident id _, _, _, h, hP => by
    rw [Pat.Stands] at h
    rw [Pat.map, Pat.All]
    exact hP id h
  | .array _ _, _, _, h, hP => by
    rw [Pat.Stands] at h
    rw [Pat.map, Pat.All]
    exact patsStand_all_map h hP
  | .rest _ _, _, _, h, hP => by
    rw [Pat.Stands] at h
    rw [Pat.map, Pat.All]
    exact Pat.Stands.all_map h hP
  | .object _ _, _, _, h, hP => by
    rw [Pat.Stands] at h
    rw [Pat.map, Pat.All]
    exact patPropertiesStand_all_map h hP
  | .withDefault _ _ _, _, _, h, hP => by
    rw [Pat.Stands] at h
    obtain ⟨mid, hleft, hright⟩ := h
    rw [Pat.map, Pat.All]
    exact ⟨Pat.Stands.all_map hleft fun id hid => hP id (hid.mono (Nat.le_refl _) hright.le),
      hright.expr_map fun id hid => hP id (hid.mono hleft.le (Nat.le_refl _))⟩
  | .expr _, _, _, h, _ => by
    rw [Pat.Stands] at h
    exact h.elim
  | .hole, _, _, _, _ => by
    rw [Pat.map, Pat.All]
    trivial

theorem patsStand_all_map : ∀ {ps : List Pat} {lo hi : Nat}, patsStand cs ps lo hi →
    (∀ id, Stretch.Named ⟨cs, lo, hi⟩ id → P (id.map f)) → patsAll P (mapPats f ps)
  | [], _, _, _, _ => by
    rw [mapPats, patsAll]
    trivial
  | _ :: _, _, _, h, hP => by
    rw [patsStand] at h
    obtain ⟨mid, hp, hps⟩ := h
    rw [mapPats, patsAll]
    exact ⟨Pat.Stands.all_map hp fun id hid => hP id (hid.mono (Nat.le_refl _) (patsStand_le hps)),
      patsStand_all_map hps fun id hid => hP id (hid.mono hp.le (Nat.le_refl _))⟩

theorem PatProperty.Stands.all_map : ∀ {p : PatProperty} {lo hi : Nat}, p.Stands cs lo hi →
    (∀ id, Stretch.Named ⟨cs, lo, hi⟩ id → P (id.map f)) → (p.map f).All P
  | .keyValue _ _, _, _, h, hP => by
    rw [PatProperty.Stands] at h
    obtain ⟨mid, hkey, hvalue⟩ := h
    rw [PatProperty.map, PatProperty.All]
    exact ⟨hkey.key_map fun id hid => hP id (hid.mono (Nat.le_refl _) hvalue.le),
      Pat.Stands.all_map hvalue fun id hid => hP id (hid.mono hkey.le (Nat.le_refl _))⟩
  | .shorthand id, _, _, h, hP => by
    rw [PatProperty.Stands] at h
    rw [PatProperty.map, PatProperty.All]
    exact hP id h
  | .shorthandDefault id _, _, _, h, hP => by
    rw [PatProperty.Stands] at h
    obtain ⟨mid, hid, hvalue⟩ := h
    rw [PatProperty.map, PatProperty.All]
    exact ⟨hP id (hid.mono (Nat.le_refl _) hvalue.le),
      hvalue.expr_map fun id' hid' => hP id' (hid'.mono hid.le (Nat.le_refl _))⟩
  | .rest _, _, _, h, hP => by
    rw [PatProperty.Stands] at h
    rw [PatProperty.map, PatProperty.All]
    exact Pat.Stands.all_map h hP

theorem patPropertiesStand_all_map : ∀ {ps : List PatProperty} {lo hi : Nat},
    patPropertiesStand cs ps lo hi → (∀ id, Stretch.Named ⟨cs, lo, hi⟩ id → P (id.map f)) →
    patPropertiesAll P (mapPatProperties f ps)
  | [], _, _, _, _ => by
    rw [mapPatProperties, patPropertiesAll]
    trivial
  | _ :: _, _, _, h, hP => by
    rw [patPropertiesStand] at h
    obtain ⟨mid, hp, hps⟩ := h
    rw [mapPatProperties, patPropertiesAll]
    exact ⟨PatProperty.Stands.all_map hp fun id hid =>
        hP id (hid.mono (Nat.le_refl _) (patPropertiesStand_le hps)),
      patPropertiesStand_all_map hps fun id hid => hP id (hid.mono hp.le (Nat.le_refl _))⟩

end

end

end TemplateSyntax.Script
