import TemplateSyntax.Proofs.GrammarStatements
import TemplateSyntax.Proofs.ReaderFacts
import TemplateSyntax.Proofs.ScriptShapes

/-! # The order of patterns

A parser of patterns takes the parts of a pattern one behind the other, so that they stand in the text in
the order in which they are listed.  What it gives is made of names: there is no target of an assignment
in it. -/

namespace TemplateSyntax.Script

/-! ## The places of results -/

/-- Results that may be patterns, or parts of them, and where they stand in a text. -/
class HasPlace (α : Type) where
  stands : List Char → α → Nat → Nat → Prop
  le : ∀ {cs : List Char} {a : α} {lo hi : Nat}, stands cs a lo hi → lo ≤ hi
  /-- What stands up to a place stands up to any later one. -/
  mono : ∀ {cs : List Char} {a : α} {lo hi hi' : Nat}, stands cs a lo hi → hi ≤ hi' → stands cs a lo hi'

namespace HasPlace

instance : HasPlace Ident where
  stands cs id lo hi := Stretch.Named ⟨cs, lo, hi⟩ id
  le := Stretch.Named.le
  mono h hle := h.mono (Nat.le_refl _) hle

instance : HasPlace Expr := ⟨Words, Words.le, Words.mono⟩

instance : HasPlace Pat := ⟨Pat.Stands, Pat.Stands.le, Pat.Stands.mono⟩

instance : HasPlace PatProperty := ⟨PatProperty.Stands, PatProperty.Stands.le, PatProperty.Stands.mono⟩

/-- A pattern with the expressions in its type, which may stand anywhere. -/
instance : HasPlace (Pat × List Expr) where
  stands cs x := x.1.Stands cs
  le := Pat.Stands.le
  mono := Pat.Stands.mono

/-- A key with the name that it is, if it is a word. -/
instance : HasPlace (Key × Option Ident) where
  stands cs x lo hi := Words cs x.1 lo hi ∧ ∀ id, x.2 = some id → Stretch.Named ⟨cs, lo, hi⟩ id
  le h := h.1.le
  mono h hle := ⟨h.1.mono hle, fun id hid => (h.2 id hid).mono (Nat.le_refl _) hle⟩

variable {α : Type} [HasPlace α]

instance : HasPlace (Option α) where
  stands cs x lo hi := lo ≤ hi ∧ ∀ a, x = some a → stands cs a lo hi
  le := And.left
  mono h hle := ⟨Nat.le_trans h.1 hle, fun a ha => mono (h.2 a ha) hle⟩

/-- Results stand one behind the other. -/
def listStands (cs : List Char) : List α → Nat → Nat → Prop
  | [], lo, hi => lo ≤ hi
  | a :: as, lo, hi => ∃ mid, stands cs a lo mid ∧ listStands cs as mid hi

theorem listStands_le {cs : List Char} {as : List α} {lo hi : Nat} (h : listStands cs as lo hi) :
    lo ≤ hi := by
  induction as generalizing lo with
  | nil => exact h
  | cons a as ih =>
    obtain ⟨mid, ha, has⟩ := h
    exact Nat.le_trans (le ha) (ih has)

theorem listStands_mono {cs : List Char} {as : List α} {lo hi hi' : Nat} (h : listStands cs as lo hi)
    (hle : hi ≤ hi') : listStands cs as lo hi' := by
  induction as generalizing lo with
  | nil => exact Nat.le_trans h hle
  | cons a as ih =>
    obtain ⟨mid, ha, has⟩ := h
    exact ⟨mid, ha, ih has⟩

instance : HasPlace (List α) := ⟨listStands, listStands_le, listStands_mono⟩

end HasPlace

open HasPlace (stands listStands)

section

variable {cs : List Char} {lo mid hi : Nat} {p : Pat} {ps : List Pat} {id : Ident} {s : Span} {e : Expr}

@[simp] theorem stands_ident : (Pat.ident id s).Stands cs lo hi ↔ Stretch.Named ⟨cs, lo, hi⟩ id := by
  rw [Pat.Stands]

@[simp] theorem stands_rest : (Pat.rest s p).Stands cs lo hi ↔ p.Stands cs lo hi := by rw [Pat.Stands]

@[simp] theorem stands_hole : Pat.hole.Stands cs lo hi ↔ lo ≤ hi := by rw [Pat.Stands]

@[simp] theorem stands_withDefault : (Pat.withDefault s p e).Stands cs lo hi ↔
    ∃ mid, p.Stands cs lo mid ∧ Words cs e mid hi := by rw [Pat.Stands]

theorem patsStand_iff : patsStand cs ps lo hi ↔ listStands cs ps lo hi := by
  induction ps generalizing lo with
  | nil => rw [patsStand, listStands]
  | cons p ps ih =>
    simp only [patsStand, listStands, ih]
    rfl

theorem patPropertiesStand_iff {properties : List PatProperty} :
    patPropertiesStand cs properties lo hi ↔ listStands cs properties lo hi := by
  induction properties generalizing lo with
  | nil => rw [patPropertiesStand, listStands]
  | cons p ps ih =>
    simp only [patPropertiesStand, listStands, ih]
    rfl

@[simp] theorem stands_array : (Pat.array s ps).Stands cs lo hi ↔ listStands cs ps lo hi := by
  rw [Pat.Stands, patsStand_iff]

@[simp] theorem stands_object {properties : List PatProperty} :
    (Pat.object s properties).Stands cs lo hi ↔ listStands cs properties lo hi := by
  rw [Pat.Stands, patPropertiesStand_iff]

@[simp] theorem stands_keyValue {key : Key} : (PatProperty.keyValue key p).Stands cs lo hi ↔
    ∃ mid, Words cs key lo mid ∧ p.Stands cs mid hi := by rw [PatProperty.Stands]

@[simp] theorem stands_shorthand :
    (PatProperty.shorthand id).Stands cs lo hi ↔ Stretch.Named ⟨cs, lo, hi⟩ id := by
  rw [PatProperty.Stands]

@[simp] theorem stands_shorthandDefault : (PatProperty.shorthandDefault id e).Stands cs lo hi ↔
    ∃ mid, Stretch.Named ⟨cs, lo, mid⟩ id ∧ Words cs e mid hi := by rw [PatProperty.Stands]

@[simp] theorem stands_restProperty : (PatProperty.rest p).Stands cs lo hi ↔ p.Stands cs lo hi := by
  rw [PatProperty.Stands]

@[simp] theorem stands_withSpan : (Parser.withSpan p s).Stands cs lo hi ↔ p.Stands cs lo hi := by
  cases p <;> simp [Parser.withSpan]

theorem some_stands {α : Type} [HasPlace α] {a : α} (h : stands cs a lo hi) : stands cs (some a) lo hi :=
  ⟨HasPlace.le h, fun _ hb => Option.some.inj hb ▸ h⟩

/-- The types behind patterns do not count. -/
theorem listStands_map_fst {xs : List (Pat × List Expr)} (h : listStands cs xs lo hi) :
    listStands cs (xs.map Prod.fst) lo hi := by
  induction xs generalizing lo with
  | nil => exact h
  | cons x xs ih =>
    obtain ⟨mid, hx, hxs⟩ := h
    exact ⟨mid, hx, ih hxs⟩

end

/-! ## Parsers that go forward -/

/-- A parser that starts in front of a token, behind what `P` says of two places, ends in front of a token,
and what it gives stands from the first of these places up to there. -/
structure Lays {α : Type} [HasPlace α] (cs : List Char) (P : Nat → Nat → Prop) (p : Parser α) : Prop where
  lays : ∀ {s s' : ParseState} {a : α} {lo mid : Nat}, s.At cs → P lo mid → mid ≤ s.lastStop →
    p s = .ok a s' → s'.At cs ∧ stands cs a lo s'.lastStop

namespace Lays

open Script.Parser

variable {α β : Type} [HasPlace α] [HasPlace β] {cs : List Char} {P : Nat → Nat → Prop} {p : Parser α}
  {q : α → Parser β} {a : α}

theorem pure (h : ∀ {lo hi}, P lo hi → stands cs a lo hi) : Lays cs P (pure a : Parser α) := by
  refine ⟨fun hs hP hle heq => ?_⟩
  obtain ⟨rfl, rfl⟩ := pure_ok heq
  exact ⟨hs, HasPlace.mono (h hP) hle⟩

/-- What is known may be said in another way. -/
theorem imp {P' : Nat → Nat → Prop} (h : Lays cs P p) (hP : ∀ {lo hi}, P' lo hi → P lo hi) :
    Lays cs P' p :=
  ⟨fun hs hP' => h.lays hs (hP hP')⟩

theorem unexpected : Lays cs P (unexpected : Parser α) :=
  ⟨fun _ _ _ heq => absurd heq unexpected_ne_ok⟩

/-- A parser whose result is no part of a pattern is in front. -/
theorem step {α : Type} {p : Parser α} {q : α → Parser β} (hp : Moves cs p)
    (hq : ∀ a, Lays cs P (q a)) : Lays cs P (p >>= q) := by
  refine ⟨fun hs hP hle heq => ?_⟩
  obtain ⟨a, s₁, ha, hb⟩ := bind_eq_ok.1 heq
  obtain ⟨hs₁, hbefore⟩ := Moves.run hp hs ha
  exact (hq a).lays hs₁ hP (Nat.le_trans hle hbefore.le) hb

/-- What follows a parser may hand on all that this gives. -/
theorem chain (hp : Lays cs P p) (hq : ∀ a, Lays cs (stands cs a) (q a)) : Lays cs P (p >>= q) := by
  refine ⟨fun hs hP hle heq => ?_⟩
  obtain ⟨a, s₁, ha, hb⟩ := bind_eq_ok.1 heq
  obtain ⟨hs₁, hstands⟩ := hp.lays hs hP hle ha
  exact (hq a).lays hs₁ hstands (Nat.le_refl _) hb

/-- A parser that does not know what is in front adds to that. -/
theorem bind (hp : Lays cs (· ≤ ·) p)
    (hq : ∀ a, Lays cs (fun lo hi => ∃ mid, P lo mid ∧ stands cs a mid hi) (q a)) :
    Lays cs P (p >>= q) := by
  refine ⟨fun {s s' b lo mid} hs hP hle heq => ?_⟩
  obtain ⟨a, s₁, ha, hb⟩ := bind_eq_ok.1 heq
  obtain ⟨hs₁, hstands⟩ := hp.lays hs (Nat.le_refl mid) hle ha
  exact (hq a).lays hs₁ ⟨mid, hP, hstands⟩ (Nat.le_refl _) hb

theorem ite {c : Prop} [Decidable c] {p q : Parser α} (hp : Lays cs P p) (hq : Lays cs P q) :
    Lays cs P (if c then p else q) := by
  split
  · exact hp
  · exact hq

end Lays

/-- What a parser gives is made of words of the text that it takes. -/
theorem Stretch.Reads.all_of_run {α : Type} [HasIdents α] {p : Parser α}
    (hp : ∀ t : Stretch, t.Reads True p) {cs : List Char} {s s' : ParseState} {a : α} {lo : Nat}
    (hs : s.At cs) (hlo : lo ≤ s.lastStop) (h : p s = .ok a s') :
    s'.At cs ∧ lo ≤ s'.lastStop ∧ (⟨cs, lo, s'.lastStop⟩ : Stretch).All a := by
  have hreads := hp ⟨cs, lo, s'.lastStop⟩
  obtain ⟨hs', hbefore⟩ := hreads.moves.run hs h
  exact ⟨hs', Nat.le_trans hlo hbefore.le, (hreads.run s hs).idents trivial hlo h (Nat.le_refl _)⟩

namespace Parser

variable {α : Type} [HasPlace α] {cs : List Char} {g : Grammar}

theorem words_lays {p : Parser Expr} (hp : ∀ t : Stretch, t.Reads True p) : Lays cs (· ≤ ·) p := by
  refine ⟨fun hs hP hle heq => ?_⟩
  obtain ⟨hs', hlo, hall⟩ := Stretch.Reads.all_of_run hp hs (Nat.le_trans hP hle) heq
  exact ⟨hs', _, hlo, Nat.le_refl _, hall⟩

theorem name_lays : Lays cs (· ≤ ·) name := by
  refine ⟨fun hs hP hle heq => ?_⟩
  obtain ⟨hs', -, hnamed⟩ :=
    Stretch.Reads.all_of_run (fun _ => name_reads) hs (Nat.le_trans hP hle) heq
  exact ⟨hs', hnamed⟩

theorem anyWord_lays : Lays cs (· ≤ ·) anyWord := by
  refine ⟨fun hs hP hle heq => ?_⟩
  obtain ⟨hs', -, hnamed⟩ :=
    Stretch.Reads.all_of_run (fun _ => anyWord_reads) hs (Nat.le_trans hP hle) heq
  exact ⟨hs', hnamed⟩

theorem manyUpTo_lays {step : Parser (Option α)} (h : Lays cs (· ≤ ·) step) (fuel : Nat) :
    Lays cs (· ≤ ·) (manyUpTo step fuel) := by
  induction fuel with
  | zero => exact .pure id
  | succ fuel ih =>
    unfold manyUpTo
    refine .chain h fun x => ?_
    split
    · next a =>
      refine .bind ih fun as => .pure ?_
      rintro lo hi ⟨mid, ⟨-, ha⟩, has⟩
      exact ⟨mid, ha a rfl, has⟩
    · exact .pure And.left

theorem many_lays {step : Parser (Option α)} (h : Lays cs (· ≤ ·) step) :
    Lays cs (· ≤ ·) (many step) := by
  unfold many
  exact .step .get fun _ => manyUpTo_lays h _

theorem commaList_lays {close : String} {item : Parser α} (h : Lays cs (· ≤ ·) item) :
    Lays cs (· ≤ ·) (commaList close item) := by
  unfold commaList
  refine .chain (many_lays ?_) fun as => .step (expect_moves _) fun _ => .pure id
  refine .step (isPunct_moves _) fun _ => .ite (.pure fun h => ⟨h, nofun⟩) ?_
  refine .chain h fun a => .step (isPunct_moves _) fun _ => ?_
  extract_lets rest
  have hrest : ∀ u, Lays cs (stands cs a) (rest u) := fun _ => .pure some_stands
  exact .ite (.step (expect_moves _) hrest) (hrest ())

/-! ## Patterns -/

section

variable (hg : ∀ t : Stretch, g.Reads t)
include hg

theorem assignment_lays {f : Mode → Mode} : Lays cs (· ≤ ·) (inMode f g.assignment) :=
  words_lays fun t => inMode_reads (hg t).assignment

theorem typeAnnotation?_moves : Moves cs (typeAnnotation? g) :=
  have hreads : Stretch.Reads ⟨cs, 0, 0⟩ True (typeAnnotation? g) := typeAnnotation?_reads (hg _)
  hreads.moves

theorem propertyKey_lays : Lays cs (· ≤ ·) (propertyKey g) := by
  refine ⟨fun {s s' a lo mid} hs hP hle heq => ?_⟩
  obtain ⟨hs', hlo, hkey, hword⟩ := Stretch.Reads.all_of_run (fun t => propertyKey_reads (hg t)) hs
    (Nat.le_trans hP hle) heq
  exact ⟨hs', ⟨_, hlo, Nat.le_refl _, hkey⟩, hword⟩

theorem withDefault_lays (left : Pat) (start : Nat) : Lays cs (stands cs left) (withDefault g left start) := by
  unfold withDefault
  refine .step (eat_moves _) fun _ => .ite ?_ (.pure id)
  refine .bind (assignment_lays hg) fun right => .step (spanFrom_moves _) fun _ => .pure fun h => ?_
  exact stands_withDefault.2 h

theorem annotated_lays (p : Pat) (start : Nat) : Lays cs (stands cs p) (annotated g p start) := by
  unfold annotated
  refine .step (typeAnnotation?_moves hg) fun x => ?_
  split
  · exact .step (spanFrom_moves _) fun _ => .pure stands_withSpan.2
  · exact .pure fun h => h

variable (hb : Lays cs (· ≤ ·) g.binding)
include hb

theorem bindingElement_lays : Lays cs (· ≤ ·) (bindingElement g) := by
  unfold bindingElement
  exact .step start_moves fun _ => .chain hb fun p => withDefault_lays hg p _

theorem arrayPatternElement_lays : Lays cs (· ≤ ·) (arrayPatternElement g) := by
  unfold arrayPatternElement
  refine .step (isPunct_moves _) fun _ => .ite (.pure fun h => ⟨h, nofun⟩) ?_
  refine .step atEnd_moves fun _ => .ite (.pure fun h => ⟨h, nofun⟩) ?_
  refine .step (eat_moves _) fun _ => .ite (.pure fun h => some_stands (stands_hole.2 h)) ?_
  refine .step start_moves fun _ => .step (eat_moves _) fun _ => ?_
  extract_lets rest
  have hrest : ∀ p, Lays cs (stands cs p) (rest p) := fun p => by
    refine .step (isPunct_moves _) fun _ => .ite ?_ (.pure some_stands)
    exact .step (expect_moves _) fun _ => .step (checkRestIsLast_moves _ _) fun _ => .pure some_stands
  refine .ite ?_ (.chain (bindingElement_lays hg hb) hrest)
  refine .chain hb fun p => .step (spanFrom_moves _) fun span => ?_
  rw [pure_bind]
  exact (hrest (.rest span p)).imp stands_rest.2

theorem arrayPattern_lays : Lays cs (· ≤ ·) (arrayPattern g) := by
  unfold arrayPattern
  refine .step start_moves fun _ => .step (expect_moves _) fun _ => ?_
  refine .chain (many_lays (arrayPatternElement_lays hg hb)) fun elements => ?_
  refine .step (recoverInnerRests_moves _) fun _ => .step (expect_moves _) fun _ => ?_
  exact .step (spanFrom_moves _) fun _ => .pure stands_array.2

theorem objectPatternProperty_lays : Lays cs (· ≤ ·) (objectPatternProperty g) := by
  unfold objectPatternProperty
  refine .step (eat_moves _) fun _ => .ite ?_ ?_
  · exact .chain hb fun p => .pure stands_restProperty.2
  refine .chain (propertyKey_lays hg) fun (key, word) => ?_
  refine .step (eat_moves _) fun _ => .ite ?_ ?_
  · refine .bind (bindingElement_lays hg hb) fun p => .pure ?_
    rintro lo hi ⟨mid, ⟨hkey, -⟩, hp⟩
    exact stands_keyValue.2 ⟨mid, hkey, hp⟩
  split
  · exact .unexpected
  · next id =>
    have hid : ∀ {lo hi}, stands cs (key, some id) lo hi → Stretch.Named ⟨cs, lo, hi⟩ id := fun h =>
      h.2 id rfl
    refine .step (eat_moves _) fun _ => .ite ?_ ?_
    · refine .bind (assignment_lays hg) fun value => .pure ?_
      rintro lo hi ⟨mid, hkey, hvalue⟩
      exact stands_shorthandDefault.2 ⟨mid, hid hkey, hvalue⟩
    have hlast : Lays cs (stands cs (key, some id)) (pure (.shorthand id) : Parser PatProperty) :=
      .pure fun h => stands_shorthand.2 (hid h)
    refine .step mode_moves fun _ => .ite ?_ hlast
    exact .step (recover_moves _) fun _ => hlast

theorem objectPattern_lays : Lays cs (· ≤ ·) (objectPattern g) := by
  unfold objectPattern
  refine .step start_moves fun _ => .step (expect_moves _) fun _ => ?_
  refine .chain (commaList_lays (objectPatternProperty_lays hg hb)) fun _ => ?_
  exact .step (spanFrom_moves _) fun _ => .pure stands_object.2

theorem bindingTarget_lays : Lays cs (· ≤ ·) (bindingTarget g) := by
  unfold bindingTarget
  refine .step lexeme_moves fun _ => ?_
  split
  · exact arrayPattern_lays hg hb
  · exact objectPattern_lays hg hb
  · exact .chain name_lays fun _ => .pure stands_ident.2

theorem plainParameter_lays : Lays cs (· ≤ ·) (plainParameter g) := by
  unfold plainParameter
  refine .step start_moves fun _ => .step isTyped_moves fun _ => .step (isWord_moves _) fun _ => ?_
  extract_lets rest
  have hrest : ∀ p, Lays cs (stands cs p) (rest p) := fun p => by
    refine .step isTyped_moves fun _ => ?_
    extract_lets rest
    have hrest : ∀ u, Lays cs (stands cs p) (rest u) := fun _ => by
      refine .chain (annotated_lays hg p _) fun (p, types) => ?_
      exact .chain (withDefault_lays hg p _) fun _ => .pure id
    exact .ite (.step (eat_moves _) fun _ => hrest ()) (hrest ())
  refine .ite ?_ (.chain hb hrest)
  refine .chain anyWord_lays fun id => ?_
  rw [pure_bind]
  exact (hrest (.ident id id.span)).imp stands_ident.2

theorem restParameter_lays : Lays cs (· ≤ ·) (restParameter g) := by
  unfold restParameter
  refine .step start_moves fun _ => .step (expect_moves _) fun _ => .chain hb fun inner => ?_
  refine .step (isPunct_moves _) fun _ => ?_
  extract_lets rest
  have hrest : ∀ p, Lays cs (stands cs p) (rest p) := fun p => by
    refine .step (typeAnnotation?_moves hg) fun _ => .step (spanFrom_moves _) fun _ => ?_
    exact .pure stands_rest.2
  refine .ite ?_ ?_
  · exact .step (recover_moves _) fun _ => .chain (withDefault_lays hg inner _) hrest
  · rw [pure_bind]
    exact hrest inner

theorem parameter_lays : Lays cs (· ≤ ·) (parameter g) := by
  unfold parameter
  refine .step (isPunct_moves _) fun _ => .step atEnd_moves fun _ => .ite (.pure fun h => ⟨h, nofun⟩) ?_
  refine .step skipParameterModifiers_moves fun _ => .step (isPunct_moves _) fun _ => ?_
  extract_lets rest
  have hrest : ∀ p : Pat × List Expr, Lays cs (stands cs p) (rest p) := fun p => by
    refine .step (isPunct_moves _) fun _ => .ite ?_ (.pure some_stands)
    exact .step (expect_moves _) fun _ => .step (checkRestIsLast_moves _ _) fun _ => .pure some_stands
  exact .ite (.chain (restParameter_lays hg hb) hrest) (.chain (plainParameter_lays hg hb) hrest)

end
end Parser

/-- The rule of each level for patterns takes their parts in order. -/
theorem Grammar.level_lays (cs : List Char) (n : Nat) : Lays cs (· ≤ ·) (level n).binding := by
  induction n with
  | zero => exact .unexpected
  | succ n ih => exact Parser.bindingTarget_lays (fun _ => level_reads n) ih

/-! ## Lists of patterns -/

namespace Parser

variable {cs : List Char} {s s' : ParseState} {n : Nat}

/-- The elements of a list stand from where they are read on. -/
theorem elements_stand {elements : List Pat} (hs : s.At cs)
    (h : many (arrayPatternElement (Grammar.level n)) s = .ok elements s') :
    s'.At cs ∧ patsStand cs elements s.lastStop s'.lastStop := by
  have hlays := many_lays
    (arrayPatternElement_lays (fun _ => Grammar.level_reads n) (Grammar.level_lays cs n))
  obtain ⟨hs', hstands⟩ := hlays.lays hs (Nat.le_refl s.lastStop) (Nat.le_refl _) h
  exact ⟨hs', patsStand_iff.2 hstands⟩

/-- So do the parameters of a function. -/
theorem parameters_stand {params : List (Pat × List Expr)} (hs : s.At cs)
    (h : many (parameter (Grammar.level n)) s = .ok params s') :
    s'.At cs ∧ patsStand cs (params.map Prod.fst) s.lastStop s'.lastStop := by
  have hlays := many_lays (parameter_lays (fun _ => Grammar.level_reads n) (Grammar.level_lays cs n))
  obtain ⟨hs', hstands⟩ := hlays.lays hs (Nat.le_refl s.lastStop) (Nat.le_refl _) h
  exact ⟨hs', patsStand_iff.2 (listStands_map_fst hstands)⟩

end Parser

end TemplateSyntax.Script
