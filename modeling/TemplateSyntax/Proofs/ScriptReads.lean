import TemplateSyntax.Proofs.ScriptStretch
import TemplateSyntax.Script.Parser.Basic

/-! # What a parser does to its text

A parser stands in front of a token of its text, and goes forward only.  The identifiers in what it
gives are words of the text between the place where it starts and the place where it ends.  Here are
the rules by which this is seen of a parser from its parts. -/

namespace TemplateSyntax.Script

open Text (From Between)

/-! ## States -/

namespace ParseState

/-- The state stands in front of a token of the text `cs`. -/
structure At (cs : List Char) (s : ParseState) : Prop where
  lexed : ∃ tail, From cs s.lastStop tail ∧ s.token = (Lexeme.read tail s.lastStop).token ∧
    s.here = (Lexeme.read tail s.lastStop).here ∧ s.rest = (Lexeme.read tail s.lastStop).rest

/-- The state `s'` is the later one: it is not in front of `s`, and what is on record stays there. -/
structure Before (s s' : ParseState) : Prop where
  le : s.lastStop ≤ s'.lastStop
  recovered : s.recovered.isSome = true → s'.recovered.isSome = true

variable {cs : List Char} {s s' s'' : ParseState}

namespace Before

theorem refl (s : ParseState) : s.Before s := ⟨Nat.le_refl _, id⟩

theorem trans (h : s.Before s') (h' : s'.Before s'') : s.Before s'' :=
  ⟨Nat.le_trans h.le h'.le, fun hs => h'.recovered (h.recovered hs)⟩

end Before

namespace At

theorem standsIn (h : s.At cs) : ∃ tail, From cs s.lastStop tail ∧
    (⟨s.token, s.here, s.rest, none⟩ : Lexed).StandsIn tail s.lastStop := by
  obtain ⟨tail, hfrom, htoken, hhere, hrest⟩ := h.lexed
  have hread := Lexeme.read_standsIn tail s.lastStop
  rw [htoken, hhere, hrest]
  exact ⟨tail, hfrom, hread.front, hread.back, hread.word, hread.punct, hread.eof⟩

theorem here (h : s.At cs) : From cs s.token.start s.here := by
  obtain ⟨tail, hfrom, hin⟩ := h.standsIn
  exact hin.front.place hfrom

theorem rest (h : s.At cs) : From cs s.token.stop s.rest := by
  obtain ⟨tail, hfrom, hin⟩ := h.standsIn
  exact hin.back.place h.here

theorem le_start (h : s.At cs) : s.lastStop ≤ s.token.start := by
  obtain ⟨tail, hfrom, hin⟩ := h.standsIn
  exact hin.front.le

theorem le_stop (h : s.At cs) : s.lastStop ≤ s.token.stop := by
  obtain ⟨tail, hfrom, hin⟩ := h.standsIn
  exact Nat.le_trans h.le_start hin.back.le

/-- A punctuator stands in the text as it is. -/
theorem punct (h : s.At cs) {p : String} (hp : s.token.lexeme = .punct p) :
    From cs s.token.start (p.toList ++ s.rest) := by
  obtain ⟨tail, hfrom, hin⟩ := h.standsIn
  rw [← hin.punct hp]
  exact h.here

/-- The text behind the first character of a punctuator, which is one byte long. -/
theorem behindFirst (h : s.At cs) {p : String} {c : Char} (hp : s.token.lexeme = .punct p)
    (hc : p.toList.head? = some c) (hsize : c.utf8Size = 1) :
    From cs (s.token.start + 1) (s.here.drop 1) := by
  obtain ⟨tail, htail⟩ := List.head?_eq_some_iff.1 hc
  have hpunct := h.punct hp
  rw [htail] at hpunct
  have hnext := hpunct.cons
  rw [hsize] at hnext
  rw [h.here.unique hpunct]
  exact hnext

/-- A word stands in the text in one of the ways to write its name. -/
theorem word (h : s.At cs) {name : String} {escaped : Bool}
    (hw : s.token.lexeme = .word name escaped) :
    ∃ raw, raw ≠ [] ∧ Between cs s.token.start raw s.token.stop ∧ Spelled raw name.toList := by
  obtain ⟨tail, hfrom, hin⟩ := h.standsIn
  obtain ⟨raw, hhere, hne, hspelled⟩ := hin.word hw
  have hhere : s.here = raw ++ s.rest := hhere
  have hfrom := h.here
  rw [hhere] at hfrom
  refine ⟨raw, hne, ⟨?_, s.rest, hfrom⟩, hspelled⟩
  obtain ⟨mid, hmid, hstop⟩ := hin.back
  obtain rfl : raw = mid := List.append_cancel_right (hhere.symm.trans hmid)
  exact hstop

/-- Nothing but the token, the text at it and the end of the token before matters. -/
theorem congr (h : s.At cs) (htoken : s'.token = s.token) (hhere : s'.here = s.here)
    (hrest : s'.rest = s.rest) (hstop : s'.lastStop = s.lastStop) : s'.At cs := by
  obtain ⟨tail, hlexed⟩ := h.lexed
  refine ⟨tail, ?_⟩
  rw [htoken, hhere, hrest, hstop]
  exact hlexed

end At
end ParseState

/-! ## Moving on -/

/-- The result of a parser that started at `s`: it stands in front of a token, not before `s`. -/
def Leads {α : Type} (cs : List Char) (s : ParseState) : EStateM.Result Nat ParseState α → Prop
  | .ok _ s' | .error _ s' => s'.At cs ∧ s.Before s'

/-- The parser goes forward in the text `cs`. -/
def Moves {α : Type} (cs : List Char) (p : Parser α) : Prop :=
  ∀ s : ParseState, s.At cs → Leads cs s (p s)

section

variable {α β : Type} {cs : List Char} {s s' : ParseState} {p : Parser α} {q : α → Parser β}

theorem Leads.stay {r : EStateM.Result Nat ParseState α} (hs : s.At cs)
    (h : (∃ a, r = .ok a s) ∨ ∃ x, r = .error x s) : Leads cs s r := by
  rcases h with ⟨a, rfl⟩ | ⟨x, rfl⟩ <;> exact ⟨hs, .refl s⟩

theorem Leads.after {r : EStateM.Result Nat ParseState α} (h : s.Before s') (hr : Leads cs s' r) :
    Leads cs s r := by
  cases r with
  | ok a s'' => exact ⟨hr.1, h.trans hr.2⟩
  | error x s'' => exact ⟨hr.1, h.trans hr.2⟩

/-- A first parser and what follows it, from one state on. -/
theorem Leads.bind (hp : Leads cs s (p s))
    (hq : ∀ a s', p s = .ok a s' → s'.At cs → s.Before s' → Leads cs s' (q a s')) :
    Leads cs s ((p >>= q) s) := by
  show Leads cs s (EStateM.bind p q s)
  unfold EStateM.bind
  cases hps : p s with
  | error x s' => rwa [hps] at hp
  | ok a s' =>
    rw [hps] at hp
    exact .after hp.2 (hq a s' hps hp.1 hp.2)

namespace Moves

theorem run {a : α} (hp : Moves cs p) (hs : s.At cs) (h : p s = .ok a s') :
    s'.At cs ∧ s.Before s' := by
  have hleads := hp s hs
  rwa [h] at hleads

theorem pure (a : α) : Moves cs (pure a : Parser α) := fun s hs => ⟨hs, .refl s⟩

theorem throw (index : Nat) : Moves cs (throw index : Parser α) := fun s hs => ⟨hs, .refl s⟩

theorem get : Moves cs (get : Parser ParseState) := fun s hs => ⟨hs, .refl s⟩

theorem bind (hp : Moves cs p) (hq : ∀ a, Moves cs (q a)) : Moves cs (p >>= q) :=
  fun s hs => .bind (hp s hs) fun a s' _ hs' _ => hq a s' hs'

theorem ite {c : Prop} [Decidable c] {p q : Parser α} (hp : c → Moves cs p) (hq : ¬ c → Moves cs q) :
    Moves cs (if c then p else q) := by
  split
  · next h => exact hp h
  · next h => exact hq h

/-- A change of the state that leaves alone where it stands and what is on record. -/
theorem modify {f : ParseState → ParseState}
    (hf : ∀ s, (f s).token = s.token ∧ (f s).here = s.here ∧ (f s).rest = s.rest ∧
      (f s).lastStop = s.lastStop ∧ (f s).recovered = s.recovered) :
    Moves cs (modify f : Parser Unit) := by
  intro s hs
  obtain ⟨htoken, hhere, hrest, hstop, hrecovered⟩ := hf s
  exact ⟨hs.congr htoken hhere hrest hstop, Nat.le_of_eq hstop.symm, fun h => by rwa [hrecovered]⟩

end Moves
end

/-! ## The identifiers of what is read -/

namespace Stretch

/-- A parser that goes forward from a state.  If it starts and ends in the stretch, what it gives has
words of the stretch as its identifiers; `pre` is what this depends on. -/
structure ReadsFrom {α : Type} [HasIdents α] (t : Stretch) (pre : Prop) (s : ParseState)
    (p : Parser α) : Prop where
  leads : Leads t.text s (p s)
  idents : pre → t.lo ≤ s.lastStop → ∀ {a : α} {s' : ParseState}, p s = .ok a s' →
    s'.lastStop ≤ t.hi → t.All a

/-- A parser that reads its stretch from wherever it stands. -/
structure Reads {α : Type} [HasIdents α] (t : Stretch) (pre : Prop) (p : Parser α) : Prop where
  run : ∀ s : ParseState, s.At t.text → t.ReadsFrom pre s p

variable {α β : Type} [HasIdents α] [HasIdents β] {t : Stretch} {pre pre' : Prop}
  {s : ParseState} {p : Parser α} {q : α → Parser β}

namespace ReadsFrom

theorem weaken (h : t.ReadsFrom pre s p) (hpre : pre' → pre) : t.ReadsFrom pre' s p :=
  ⟨h.leads, fun hp => h.idents (hpre hp)⟩

/-- A parser whose result has no identifiers is in front. -/
theorem step {α : Type} {p : Parser α} {q : α → Parser β} (hp : Leads t.text s (p s))
    (hq : ∀ a s', p s = .ok a s' → s'.At t.text → s.Before s' → t.ReadsFrom pre s' (q a)) :
    t.ReadsFrom pre s (p >>= q) := by
  refine ⟨.bind hp fun a s' heq hs' hle => (hq a s' heq hs' hle).leads,
    fun hpre hlo b s'' heq hhi => ?_⟩
  have heq : EStateM.bind p q s = .ok b s'' := heq
  unfold EStateM.bind at heq
  split at heq
  · next a s' hps =>
    rw [hps] at hp
    exact (hq a s' hps hp.1 hp.2).idents hpre (Nat.le_trans hlo hp.2.le) heq hhi
  · exact nomatch heq

/-- What follows a parser may use the identifiers that it gives. -/
theorem bind (hp : t.ReadsFrom pre s p)
    (hq : ∀ a s', p s = .ok a s' → s'.At t.text → s.Before s' →
      t.ReadsFrom (t.All a ∧ pre) s' (q a)) : t.ReadsFrom pre s (p >>= q) := by
  refine ⟨.bind hp.leads fun a s' heq hs' hle => (hq a s' heq hs' hle).leads,
    fun hpre hlo b s'' heq hhi => ?_⟩
  have heq : EStateM.bind p q s = .ok b s'' := heq
  unfold EStateM.bind at heq
  have hleads := hp.leads
  split at heq
  · next a s' hps =>
    rw [hps] at hleads
    have hrest := hq a s' hps hleads.1 hleads.2
    have hleads' := hrest.leads
    rw [heq] at hleads'
    have ha := hp.idents hpre hlo hps (Nat.le_trans hleads'.2.le hhi)
    exact hrest.idents ⟨ha, hpre⟩ (Nat.le_trans hlo hleads.2.le) heq hhi
  · exact nomatch heq

end ReadsFrom

namespace Reads

theorem moves (h : t.Reads pre p) : Moves t.text p := fun s hs => (h.run s hs).leads

theorem weaken (h : t.Reads pre p) (hpre : pre' → pre) : t.Reads pre' p :=
  ⟨fun s hs => (h.run s hs).weaken hpre⟩

theorem pure {a : α} (h : pre → t.All a) : t.Reads pre (pure a) := by
  refine ⟨fun s hs => ⟨⟨hs, .refl s⟩, fun hpre _ a' s' heq _ => ?_⟩⟩
  obtain ⟨rfl, rfl⟩ := EStateM.Result.ok.inj heq
  exact h hpre

theorem throw (index : Nat) : t.Reads pre (throw index : Parser α) :=
  ⟨fun s hs => ⟨⟨hs, .refl s⟩, fun _ _ _ _ heq _ => nomatch heq⟩⟩

theorem bind (hp : t.Reads pre p) (hq : ∀ a, t.Reads (t.All a ∧ pre) (q a)) :
    t.Reads pre (p >>= q) :=
  ⟨fun s hs => (hp.run s hs).bind fun a s' _ hs' _ => (hq a).run s' hs'⟩

theorem step {α : Type} {p : Parser α} {q : α → Parser β} (hp : Moves t.text p)
    (hq : ∀ a, t.Reads pre (q a)) : t.Reads pre (p >>= q) :=
  ⟨fun s hs => .step (hp s hs) fun a s' _ hs' _ => (hq a).run s' hs'⟩

theorem ite {c : Prop} [Decidable c] {p q : Parser α} (hp : c → t.Reads pre p)
    (hq : ¬ c → t.Reads pre q) : t.Reads pre (if c then p else q) := by
  split
  · next h => exact hp h
  · next h => exact hq h

end Reads
end Stretch

namespace Parser

open Stretch

variable {α : Type} {cs : List Char} {s s' : ParseState}

/-! ## Looking at tokens -/

theorem token_moves : Moves cs token := fun s hs => ⟨hs, .refl s⟩
theorem lexeme_moves : Moves cs lexeme := fun s hs => ⟨hs, .refl s⟩
theorem start_moves : Moves cs start := fun s hs => ⟨hs, .refl s⟩
theorem lastStop_moves : Moves cs lastStop := fun s hs => ⟨hs, .refl s⟩
theorem spanFrom_moves (first : Nat) : Moves cs (spanFrom first) := fun s hs => ⟨hs, .refl s⟩
theorem mode_moves : Moves cs mode := fun s hs => ⟨hs, .refl s⟩
theorem isTyped_moves : Moves cs isTyped := fun s hs => ⟨hs, .refl s⟩
theorem afterBreak_moves : Moves cs afterBreak := fun s hs => ⟨hs, .refl s⟩
theorem peek_moves : Moves cs peek := fun s hs => ⟨hs, .refl s⟩
theorem isPunct_moves (text : String) : Moves cs (isPunct text) := fun s hs => ⟨hs, .refl s⟩
theorem isWord_moves (name : String) : Moves cs (isWord name) := fun s hs => ⟨hs, .refl s⟩
theorem atEnd_moves : Moves cs atEnd := fun s hs => ⟨hs, .refl s⟩

theorem isPunctOf_moves (texts : List String) : Moves cs (isPunctOf texts) := by
  unfold isPunctOf
  refine .bind lexeme_moves fun l => ?_
  split <;> exact .pure _

theorem isWordOf_moves (names : List String) : Moves cs (isWordOf names) := by
  unfold isWordOf
  refine .bind lexeme_moves fun l => ?_
  split <;> exact .pure _

theorem endsStatement_moves : Moves cs endsStatement := by
  unfold endsStatement
  exact .bind (isPunctOf_moves _) fun _ => .bind atEnd_moves fun _ => .bind afterBreak_moves fun _ =>
    .pure _

theorem unexpected_moves : Moves cs (unexpected : Parser α) := by
  unfold unexpected
  refine .bind lexeme_moves fun l => ?_
  split
  · exact .throw _
  · exact .bind start_moves fun _ => .throw _

theorem recover_moves (index : Nat) : Moves cs (recover index) := by
  intro s hs
  refine ⟨hs.congr rfl rfl rfl rfl, Nat.le_refl _, fun h => ?_⟩
  show (s.recovered <|> some index).isSome = true
  cases hr : s.recovered with
  | none => rfl
  | some _ => rfl

theorem recover_ok {index : Nat} {u : Unit} (h : recover index s = .ok u s') :
    s'.lastStop = s.lastStop := by
  obtain ⟨-, rfl⟩ := EStateM.Result.ok.inj h
  rfl

/-! ## Moving on -/

/-- To go on reading at a place behind the last token. -/
theorem resume_leads {rest : List Char} {stop : Nat} (hfrom : From cs stop rest)
    (hle : s.lastStop ≤ stop) : Leads cs s (resume rest stop s) := by
  refine ⟨⟨rest, hfrom, rfl, rfl, rfl⟩, hle, fun h => ?_⟩
  show (s.recovered <|> _).isSome = true
  obtain ⟨index, hindex⟩ := Option.isSome_iff_exists.1 h
  rw [hindex]
  rfl

theorem resume_ok {rest : List Char} {stop : Nat} {u : Unit} (h : resume rest stop s = .ok u s') :
    s'.lastStop = stop := by
  obtain ⟨-, rfl⟩ := EStateM.Result.ok.inj h
  rfl

/-- To move on is to go on reading behind the look-ahead token, if that is one. -/
theorem advance_cases (s : ParseState) :
    (∃ index, s.token.lexeme = .bad index ∧ advance s = .error index s) ∨
      (∀ index, s.token.lexeme ≠ .bad index) ∧ advance s = resume s.rest s.token.stop s := by
  obtain ⟨⟨x, start, stop, afterBreak⟩, here, rest, lastStop, mode, arrowStart, recovered⟩ := s
  cases x with
  | bad index => exact .inl ⟨index, rfl, rfl⟩
  | _ => exact .inr ⟨nofun, rfl⟩

theorem advance_moves : Moves cs advance := by
  intro s hs
  rcases advance_cases s with ⟨index, -, hrun⟩ | ⟨-, hrun⟩
  · rw [hrun]
    exact ⟨hs, .refl s⟩
  · rw [hrun]
    exact resume_leads hs.rest hs.le_stop

theorem eat_moves (text : String) : Moves cs (eat text) := by
  unfold eat
  exact .bind (isPunct_moves _) fun _ =>
    .ite (fun _ => .bind advance_moves fun _ => .pure _) fun _ => .pure _

theorem expect_moves (text : String) : Moves cs (expect text) := by
  unfold expect
  exact .bind (isPunct_moves _) fun _ => .ite (fun _ => advance_moves) fun _ => unexpected_moves

theorem eatWord_moves (name : String) : Moves cs (eatWord name) := by
  unfold eatWord
  exact .bind (isWord_moves _) fun _ =>
    .ite (fun _ => .bind advance_moves fun _ => .pure _) fun _ => .pure _

theorem expectWord_moves (name : String) : Moves cs (expectWord name) := by
  unfold expectWord
  exact .bind (isWord_moves _) fun _ => .ite (fun _ => advance_moves) fun _ => unexpected_moves

theorem semicolon_moves : Moves cs semicolon := by
  unfold semicolon
  exact .bind (eat_moves _) fun _ => .ite (fun _ => .pure _) fun _ =>
    .bind endsStatement_moves fun _ => .ite (fun _ => .pure _) fun _ => unexpected_moves

/-- The first character of a punctuator that is one byte long may be taken alone. -/
theorem resume_drop_leads (hs : s.At cs) {p : String} {c : Char}
    (hp : s.token.lexeme = .punct p) (hc : p.toList.head? = some c) (hsize : c.utf8Size = 1) :
    Leads cs s (resume (s.here.drop 1) (s.token.start + 1) s) :=
  resume_leads (hs.behindFirst hp hc hsize) (Nat.le_trans hs.le_start (Nat.le_add_right ..))

theorem expectGreater_moves : Moves cs expectGreater := by
  intro s hs
  refine .bind (.stay hs (.inl ⟨s, rfl⟩)) fun _ _ heq _ _ => ?_
  obtain ⟨rfl, rfl⟩ := EStateM.Result.ok.inj heq
  cases hx : s.token.lexeme with
  | punct text =>
    by_cases hstart : text.startsWith ">" = true
    · have hhead : text.toList.head? = some '>' := by
        obtain ⟨tail, htail⟩ := String.startsWith_string_iff.1 hstart
        rw [← htail]
        rfl
      simp only [hstart, if_true]
      exact resume_drop_leads hs hx hhead rfl
    · simp only [hstart]
      exact unexpected_moves _ hs
  | _ => exact unexpected_moves _ hs

theorem expectLess_moves : Moves cs expectLess := by
  intro s hs
  refine .bind (.stay hs (.inl ⟨s, rfl⟩)) fun _ _ heq _ _ => ?_
  obtain ⟨rfl, rfl⟩ := EStateM.Result.ok.inj heq
  cases hx : s.token.lexeme with
  | punct text =>
    by_cases hstart : (text == "<" || text == "<<") = true
    · have hhead : text.toList.head? = some '<' := by
        rw [Bool.or_eq_true, beq_iff_eq, beq_iff_eq] at hstart
        rcases hstart with rfl | rfl <;> rfl
      simp only [hstart, if_true]
      exact resume_drop_leads hs hx hhead rfl
    · simp only [hstart]
      exact unexpected_moves _ hs
  | _ => exact unexpected_moves _ hs

theorem atLess_moves : Moves cs atLess := isPunctOf_moves _

/-! ## Combining -/

theorem setMode_moves (m : Mode) :
    Moves cs (modify fun s => { s with mode := m } : Parser Unit) :=
  .modify fun _ => ⟨rfl, rfl, rfl, rfl, rfl⟩

theorem attempt_moves {p : Parser α} (h : Moves cs p) : Moves cs (attempt p) := by
  intro s hs
  have hp := h s hs
  unfold attempt
  cases hps : p s with
  | ok a s' => rwa [hps] at hp
  | error x s' => exact ⟨hs, .refl s⟩

theorem succeeds_moves (p : Parser α) : Moves cs (succeeds p) := by
  intro s hs
  unfold succeeds
  cases p s <;> exact ⟨hs, .refl s⟩

theorem orElseFrom_moves {p : Parser α} {handle : Nat → Parser α} (hp : Moves cs p)
    (hh : ∀ index, Moves cs (handle index)) : Moves cs (orElseFrom p handle) := by
  intro s hs
  have hp := hp s hs
  unfold orElseFrom
  cases hps : p s with
  | ok a s' => rwa [hps] at hp
  | error x s' =>
    rw [hps] at hp
    have hback := hh x { s' with mode := s.mode } (hp.1.congr rfl rfl rfl rfl)
    have hbefore : s.Before { s' with mode := s.mode } := ⟨hp.2.le, hp.2.recovered⟩
    exact .after hbefore hback

theorem manyUpTo_moves {step : Parser (Option α)} (h : Moves cs step) (fuel : Nat) :
    Moves cs (manyUpTo step fuel) := by
  induction fuel with
  | zero => exact .pure []
  | succ fuel ih =>
    unfold manyUpTo
    refine .bind h fun x => ?_
    split
    · exact .bind ih fun _ => .pure _
    · exact .pure _

theorem many_moves {step : Parser (Option α)} (h : Moves cs step) : Moves cs (many step) := by
  unfold many
  exact .bind .get fun _ => manyUpTo_moves h _

/-! ## Names -/

/-- A parser and what follows it succeed together. -/
theorem bind_eq_ok {β : Type} {p : Parser α} {q : α → Parser β} {b : β} :
    (p >>= q) s = .ok b s' ↔ ∃ a s₁, p s = .ok a s₁ ∧ q a s₁ = .ok b s' := by
  show EStateM.bind p q s = .ok b s' ↔ _
  unfold EStateM.bind
  cases p s with
  | ok a s₁ =>
    refine ⟨fun h => ⟨a, s₁, rfl, h⟩, ?_⟩
    rintro ⟨_, _, heq, h⟩
    obtain ⟨rfl, rfl⟩ := EStateM.Result.ok.inj heq
    exact h
  | error x s₁ =>
    constructor
    · intro h
      cases h
    · rintro ⟨_, _, heq, -⟩
      cases heq

theorem advance_ok {u : Unit} (h : advance s = .ok u s') : s'.lastStop = s.token.stop := by
  rcases advance_cases s with ⟨index, -, hrun⟩ | ⟨-, hrun⟩
  · exact nomatch hrun.symm.trans h
  · obtain ⟨-, rfl⟩ := EStateM.Result.ok.inj (hrun.symm.trans h)
    rfl

/-- A word that is taken in a stretch is a word of the stretch. -/
theorem named_of_word {t : Stretch} {name : String} {escaped : Bool} {u : Unit}
    (hs : s.At t.text) (hlo : t.lo ≤ s.lastStop) (hw : s.token.lexeme = .word name escaped)
    (hrun : advance s = .ok u s') (hhi : s'.lastStop ≤ t.hi) :
    t.Named ⟨name, ⟨s.token.start, s.token.stop⟩⟩ where
  lo := Nat.le_trans hlo hs.le_start
  hi := advance_ok hrun ▸ hhi
  spelled := hs.word hw

theorem nameHere?_moves : Moves cs nameHere? := by
  unfold nameHere?
  refine .bind lexeme_moves fun l => ?_
  split
  · exact .bind mode_moves fun _ => .pure _
  · exact .pure _

theorem nameHere?_ok {n : String} (h : nameHere? s = .ok (some n) s') :
    s' = s ∧ ∃ escaped, s.token.lexeme = .word n escaped := by
  obtain ⟨l, s₁, hl, h⟩ := bind_eq_ok.1 h
  obtain ⟨rfl, rfl⟩ := EStateM.Result.ok.inj hl
  cases hx : s.token.lexeme with
  | word name escaped =>
    rw [hx] at h
    obtain ⟨hname, rfl⟩ := EStateM.Result.ok.inj h
    refine ⟨rfl, escaped, ?_⟩
    split at hname
    · exact nomatch hname
    · rw [Option.some.inj hname]
  | _ =>
    rw [hx] at h
    exact nomatch (EStateM.Result.ok.inj h).1

theorem unexpected_ne_ok {a : α} : (unexpected : Parser α) s ≠ .ok a s' := by
  intro h
  obtain ⟨l, s₁, hl, h⟩ := bind_eq_ok.1 h
  split at h
  · exact nomatch h
  · exact nomatch h

/-- A name that is taken is the look-ahead token. -/
theorem name_ok {id : Ident} (h : name s = .ok id s') :
    (∃ escaped, s.token.lexeme = .word id.name escaped) ∧
      id.span = ⟨s.token.start, s.token.stop⟩ ∧ ∃ u, advance s = .ok u s' := by
  obtain ⟨x, s₁, hx, hrest⟩ := bind_eq_ok.1 h
  cases x with
  | none => exact absurd hrest unexpected_ne_ok
  | some n =>
    obtain ⟨rfl, hw⟩ := nameHere?_ok hx
    obtain ⟨u, s₂, hu, hrest⟩ := bind_eq_ok.1 (show (advance >>= _) s₁ = _ from hrest)
    obtain ⟨rfl, rfl⟩ := EStateM.Result.ok.inj hrest
    exact ⟨hw, rfl, u, hu⟩

theorem anyWord_ok {id : Ident} (h : anyWord s = .ok id s') :
    (∃ escaped, s.token.lexeme = .word id.name escaped) ∧
      id.span = ⟨s.token.start, s.token.stop⟩ ∧ ∃ u, advance s = .ok u s' := by
  obtain ⟨l, s₁, hl, hrest⟩ := bind_eq_ok.1 h
  obtain ⟨rfl, rfl⟩ := EStateM.Result.ok.inj hl
  cases hx : s.token.lexeme with
  | word n escaped =>
    rw [hx] at hrest
    obtain ⟨u, s₂, hu, hrest⟩ := bind_eq_ok.1 (show (advance >>= _) s = _ from hrest)
    obtain ⟨rfl, rfl⟩ := EStateM.Result.ok.inj hrest
    exact ⟨⟨escaped, rfl⟩, rfl, u, hu⟩
  | _ =>
    rw [hx] at hrest
    exact absurd hrest unexpected_ne_ok

theorem name_moves : Moves cs name := by
  unfold name
  refine .bind nameHere?_moves fun x => ?_
  split
  · exact .bind token_moves fun _ => .bind advance_moves fun _ => .pure _
  · exact unexpected_moves

theorem anyWord_moves : Moves cs anyWord := by
  unfold anyWord
  refine .bind lexeme_moves fun x => ?_
  split
  · exact .bind token_moves fun _ => .bind advance_moves fun _ => .pure _
  · exact unexpected_moves

/-! ## Reading a stretch -/

variable {β : Type} [HasIdents α] [HasIdents β] {t : Stretch} {pre : Prop}

theorem name_reads : t.Reads pre name := by
  refine ⟨fun s hs => ⟨name_moves s hs, fun _ hlo id s' h hhi => ?_⟩⟩
  obtain ⟨⟨escaped, hw⟩, hspan, u, hu⟩ := name_ok h
  have hnamed := named_of_word hs hlo hw hu hhi
  rwa [← hspan] at hnamed

theorem anyWord_reads : t.Reads pre anyWord := by
  refine ⟨fun s hs => ⟨anyWord_moves s hs, fun _ hlo id s' h hhi => ?_⟩⟩
  obtain ⟨⟨escaped, hw⟩, hspan, u, hu⟩ := anyWord_ok h
  have hnamed := named_of_word hs hlo hw hu hhi
  rwa [← hspan] at hnamed

/-- A word that is looked at and then taken: what follows may use it as an identifier. -/
theorem takeWord_reads {s : ParseState} {name : String} {escaped : Bool} {q : Unit → Parser α}
    (hs : s.At t.text) (hw : s.token.lexeme = .word name escaped)
    (hq : ∀ u, t.Reads (t.All (⟨name, ⟨s.token.start, s.token.stop⟩⟩ : Ident) ∧ pre) (q u)) :
    t.ReadsFrom pre s (advance >>= q) := by
  refine ⟨.bind (advance_moves s hs) fun u s' _ hs' _ => ((hq u).run s' hs').leads,
    fun hpre hlo a s'' heq hhi => ?_⟩
  obtain ⟨u, s', hadv, hrest⟩ := bind_eq_ok.1 heq
  have hleads := advance_moves s hs
  rw [hadv] at hleads
  have hq := (hq u).run s' hleads.1
  have hleads' := hq.leads
  rw [hrest] at hleads'
  have hnamed := named_of_word hs hlo hw hadv (Nat.le_trans hleads'.2.le hhi)
  exact hq.idents ⟨hnamed, hpre⟩ (Nat.le_trans hlo hleads.2.le) hrest hhi

theorem unexpected_reads : t.Reads pre (unexpected : Parser α) :=
  ⟨fun s hs => ⟨unexpected_moves s hs, fun _ _ _ _ heq _ => absurd heq unexpected_ne_ok⟩⟩

theorem inMode_reads {f : Mode → Mode} {p : Parser α} (h : t.Reads pre p) :
    t.Reads pre (inMode f p) := by
  unfold inMode
  exact .step mode_moves fun _ => .step (setMode_moves _) fun _ => .bind h fun _ =>
    .step (setMode_moves _) fun _ => .pure fun ha => ha.1

theorem attempt_reads {p : Parser α} (h : t.Reads pre p) : t.Reads pre (attempt p) := by
  refine ⟨fun s hs => ⟨attempt_moves h.moves s hs, fun hpre hlo x s' heq hhi => ?_⟩⟩
  unfold attempt at heq
  split at heq
  · next a s₁ hp =>
    obtain ⟨rfl, rfl⟩ := EStateM.Result.ok.inj heq
    exact all_some.2 ((h.run s hs).idents hpre hlo hp hhi)
  · obtain ⟨rfl, -⟩ := EStateM.Result.ok.inj heq
    exact all_none

theorem orElseFrom_reads {p : Parser α} {handle : Nat → Parser α} (hp : t.Reads pre p)
    (hh : ∀ index, t.Reads pre (handle index)) : t.Reads pre (orElseFrom p handle) := by
  refine ⟨fun s hs => ⟨orElseFrom_moves hp.moves (fun i => (hh i).moves) s hs,
    fun hpre hlo a s' heq hhi => ?_⟩⟩
  unfold orElseFrom at heq
  have hleads := (hp.run s hs).leads
  split at heq
  · next b s₁ hps =>
    obtain ⟨rfl, rfl⟩ := EStateM.Result.ok.inj heq
    exact (hp.run s hs).idents hpre hlo hps hhi
  · next index s₁ hps =>
    rw [hps] at hleads
    have hat : ParseState.At t.text { s₁ with mode := s.mode } := hleads.1.congr rfl rfl rfl rfl
    exact ((hh index).run _ hat).idents hpre (Nat.le_trans hlo hleads.2.le) heq hhi

theorem manyUpTo_reads {step : Parser (Option α)} (h : ∀ {pre : Prop}, t.Reads pre step)
    (fuel : Nat) : t.Reads pre (manyUpTo step fuel) := by
  induction fuel generalizing pre with
  | zero => exact .pure fun _ => all_nil
  | succ fuel ih =>
    unfold manyUpTo
    refine .bind h fun x => ?_
    split
    · next a =>
      exact .bind ih fun as => .pure fun ha => all_cons.2 ⟨all_some.1 ha.2.1, ha.1⟩
    · exact .pure fun _ => all_nil

theorem many_reads {step : Parser (Option α)} (h : ∀ {pre : Prop}, t.Reads pre step) :
    t.Reads pre (many step) := by
  unfold many
  exact .step .get fun _ => manyUpTo_reads h _

theorem commaList_reads {close : String} {item : Parser α} (h : ∀ {pre : Prop}, t.Reads pre item) :
    t.Reads pre (commaList close item) := by
  unfold commaList
  refine .bind (many_reads ?_) fun _ => .step (expect_moves _) fun _ => .pure fun ha => ha.1
  intro pre
  refine .step (isPunct_moves _) fun _ => .ite (fun _ => .pure fun _ => all_none) fun _ => ?_
  refine .bind h fun a => .step (isPunct_moves _) fun _ => ?_
  extract_lets rest
  have hrest : ∀ u, t.Reads (t.All a ∧ pre) (rest u) := fun _ => .pure fun ha => all_some.2 ha.1
  exact .ite (fun _ => .step (expect_moves _) hrest) fun _ => hrest ()

end Parser

end TemplateSyntax.Script
