import Mathlib.Data.List.Induction
import TemplateSyntax.Text.Bytes

/-! # Where a comment ends

The rule for the end of a comment is a search: the first `-->` or `--!>` closes it, but for `>` and
`->` right at the start.  What a reader that goes from character to character has to know for it is how
much of such an end the text so far ends with.  These are the `Dashes`, and `CommentEnds` is what they
come to. -/

namespace TemplateSyntax

namespace Text

/-- The text with all its line breaks as line feeds. -/
def unifyBreaks : List Char → List Char
  | '\r' :: '\n' :: cs => '\n' :: unifyBreaks cs
  | '\r' :: cs => '\n' :: unifyBreaks cs
  | c :: cs => c :: unifyBreaks cs
  | [] => []

/-- With its line breaks as line feeds, a text starts with a character and goes on with another text. -/
inductive Gives : List Char → Char → List Char → Prop
  | pair (rest : List Char) : Gives ('\r' :: '\n' :: rest) '\n' rest
  | lone {rest : List Char} (h : rest.head? ≠ some '\n') : Gives ('\r' :: rest) '\n' rest
  | char {c : Char} (rest : List Char) (h : c ≠ '\r') : Gives (c :: rest) c rest

variable {r rest front back : List Char} {c : Char}

/-- A text starts with one character at most. -/
theorem Gives.unique {c' : Char} {rest' : List Char} (h : Gives r c rest) (h' : Gives r c' rest') :
    c' = c ∧ rest' = rest := by
  cases h with
  | pair => cases h' <;> first | exact ⟨rfl, rfl⟩ | contradiction
  | lone => cases h' <;> first | exact ⟨rfl, rfl⟩ | contradiction
  | char => cases h' <;> first | exact ⟨rfl, rfl⟩ | contradiction

/-- Only a line feed stands for something else. -/
theorem Gives.eq_cons (h : Gives r c rest) (hc : c ≠ '\n') : r = c :: rest := by
  cases h with
  | pair | lone => exact absurd rfl hc
  | char => rfl

/-- Each character takes some bytes of the text. -/
theorem Gives.byteLength_lt (h : Gives r c rest) : byteLength rest < byteLength r := by
  have hpos (d : Char) : 0 < d.utf8Size := d.utf8Size_pos
  cases h with
  | pair =>
    simp only [byteLength_cons]
    exact Nat.lt_of_lt_of_le (Nat.lt_add_of_pos_left (hpos '\n')) (Nat.le_add_left _ _)
  | lone | char =>
    rw [byteLength_cons]
    exact Nat.lt_add_of_pos_left (hpos _)

/-- A text starts with the character that it gives, unless that stands for a carriage return. -/
theorem Gives.head? (h : Gives r c rest) : r.head? = some c ∨ r.head? = some '\r' ∧ c = '\n' := by
  cases h with
  | pair | lone => exact .inr ⟨rfl, rfl⟩
  | char => exact .inl rfl

/-- A character stands for itself or for a line break. -/
theorem Gives.exists_append (h : Gives r c rest) :
    ∃ front, r = front ++ rest ∧ ∀ d ∈ front, d = c ∨ d = '\r' ∨ d = '\n' := by
  cases h with
  | pair => exact ⟨['\r', '\n'], rfl, by simp⟩
  | lone => exact ⟨['\r'], rfl, by simp⟩
  | char => exact ⟨[c], rfl, by simp⟩

theorem exists_gives (h : r ≠ []) : ∃ c rest, Gives r c rest := by
  obtain ⟨c, rest, rfl⟩ := List.exists_cons_of_ne_nil h
  by_cases hc : c = '\r'
  · subst hc
    by_cases hrest : rest.head? = some '\n'
    · obtain ⟨tail, rfl⟩ := List.head?_eq_some_iff.1 hrest
      exact ⟨_, _, .pair tail⟩
    · exact ⟨_, _, .lone hrest⟩
  · exact ⟨_, _, .char rest hc⟩

theorem unifyBreaks_cons (hc : c ≠ '\r') : unifyBreaks (c :: rest) = c :: unifyBreaks rest := by
  rw [unifyBreaks]
  · intro cs heq
    exact absurd heq hc
  · intro heq
    exact absurd heq hc

theorem Gives.unifyBreaks (h : Gives r c rest) : unifyBreaks r = c :: unifyBreaks rest := by
  cases h with
  | pair => rw [Text.unifyBreaks]
  | lone h =>
    rw [Text.unifyBreaks]
    intro cs heq
    exact h (by rw [heq]; rfl)
  | char rest h => exact unifyBreaks_cons h

/-- Text without carriage returns stays as it is. -/
theorem unifyBreaks_append_of_ne (h : ∀ c ∈ front, c ≠ '\r') :
    unifyBreaks (front ++ rest) = front ++ unifyBreaks rest := by
  induction front with
  | nil => rfl
  | cons c front ih =>
    rw [List.cons_append, unifyBreaks_cons (h c (List.mem_cons_self ..)),
      ih fun d hd => h d (List.mem_cons_of_mem c hd), List.cons_append]

/-- A line break is not cut in two in front of another character than a line feed. -/
theorem unifyBreaks_append (h : back.head? ≠ some '\n') :
    unifyBreaks (front ++ back) = unifyBreaks front ++ unifyBreaks back := by
  fun_induction unifyBreaks front with
  | case1 cs ih => rw [List.cons_append, List.cons_append, unifyBreaks, ih, List.cons_append]
  | case2 cs hcs ih =>
    rw [List.cons_append, unifyBreaks, ih, List.cons_append]
    intro tail heq
    cases cs with
    | nil => exact h (by rw [← List.nil_append back, heq]; rfl)
    | cons d cs => exact hcs cs (by rw [(List.cons.inj heq).1])
  | case3 c cs hpair hlone ih =>
    rw [List.cons_append, unifyBreaks_cons hlone, ih, List.cons_append]
  | case4 => rfl

end Text

/-! ## Dashes -/

/-- How much of the end of a comment a text ends with. -/
inductive Dashes where
  | none | one | two | bang
  deriving DecidableEq, Repr

namespace Dashes

/-- What the text ends with. -/
def text : Dashes → List Char
  | none => []
  | one => ['-']
  | two => ['-', '-']
  | bang => ['-', '-', '!']

/-- What the text ends with when a character is added. -/
def next : Dashes → Char → Dashes
  | two, '-' => two
  | one, '-' => two
  | _, '-' => one
  | two, '!' => bang
  | _, _ => none

/-- Whether a `>` comes to the end of a comment. -/
def isClosing : Dashes → Bool
  | two | bang => true
  | _ => false

/-- What a text ends with. -/
def behind (u : List Char) : Dashes := u.foldl next none

variable {d e : Dashes} {u r rest t front back value : List Char} {c x : Char} {p q : Nat}

theorem behind_concat (u : List Char) (c : Char) : behind (u ++ [c]) = (behind u).next c := by
  rw [behind, List.foldl_append, List.foldl_cons, List.foldl_nil, behind]

theorem next_of_ne (hdash : c ≠ '-') (hbang : c ≠ '!') : d.next c = none := by
  cases d <;> simp [next, hdash, hbang]

theorem concat_suffix_concat_iff : t ++ [x] <:+ u ++ [c] ↔ x = c ∧ t <:+ u := by
  rw [← List.reverse_prefix, List.reverse_concat, List.reverse_concat, List.cons_prefix_cons,
    List.reverse_prefix]

/-- The character that what a text ends with may end with, and what stands in front of it. -/
def last? : Dashes → Option (Dashes × Char)
  | none => .none
  | one => some (none, '-')
  | two => some (one, '-')
  | bang => some (two, '!')

theorem text_of_last? (h : d.last? = some (e, x)) : d.text = e.text ++ [x] := by
  cases d <;> cases h <;> rfl

/-- The automaton does with a character what the text does. -/
theorem text_suffix_next_iff (h : d.last? = some (e, x)) (b : Dashes) :
    d.text <:+ (b.next c).text ↔ x = c ∧ e.text <:+ b.text := by
  by_cases hdash : c = '-'
  · subst hdash
    cases d <;> cases h <;> cases b <;> decide
  by_cases hbang : c = '!'
  · subst hbang
    cases d <;> cases h <;> cases b <;> decide
  rw [next_of_ne hdash hbang]
  cases d <;> cases h <;> simp [text, Ne.symm hdash, Ne.symm hbang]

/-- A text ends with as much of the end of a comment as its dashes say. -/
theorem text_suffix_iff : d.text <:+ u ↔ d.text <:+ (behind u).text := by
  induction u using List.reverseRecOn generalizing d with
  | nil => rfl
  | append_singleton u c ih =>
    cases hlast : d.last? with
    | none =>
      obtain rfl : d = none := by cases d <;> first | rfl | cases hlast
      simp [text]
    | some prev =>
      obtain ⟨e, x⟩ := prev
      rw [behind_concat, text_suffix_next_iff hlast, text_of_last? hlast, concat_suffix_concat_iff, ih]

theorem behind_suffix (u : List Char) : (behind u).text <:+ u :=
  text_suffix_iff.2 (List.suffix_refl _)

/-- The dashes are the longest ones. -/
theorem length_le (h : d.text <:+ u) : d.text.length ≤ (behind u).text.length :=
  (text_suffix_iff.1 h).length_le

/-- A text that ends like the front of a closer has the dashes of that. -/
theorem behind_eq (h : d.text <:+ u) (hd : d.isClosing = true) : behind u = d := by
  have hsuffix := text_suffix_iff.1 h
  generalize behind u = b at hsuffix
  cases d with
  | none | one => cases hd
  | two => cases b <;> first | rfl | exact absurd hsuffix (by decide)
  | bang => cases b <;> first | rfl | exact absurd hsuffix (by decide)

end Dashes
/-! ## The rule -/

/-- What closes a comment. -/
def commentClosers : List (List Char) := ["-->".toList, "--!>".toList]

/-- A comment is closed at this place of the text. -/
def ClosesCommentAt (r : List Char) (p : Nat) : Prop := ∃ closer ∈ commentClosers, closer <+: r.drop p

/-- A comment is closed right at its start. -/
def StartsAbruptly (r : List Char) : Prop := ['>'] <+: r ∨ ['-', '>'] <+: r

/-- A comment is closed at its start by nothing but a `>` and a dash with a `>`. -/
theorem not_startsAbruptly {r : List Char}
    (h : ∀ c back, Text.Gives r c back → c ≠ '-' ∧ c ≠ '>') : ¬ StartsAbruptly r := by
  rintro (⟨back, rfl⟩ | ⟨back, rfl⟩)
  · exact (h '>' back (.char back (by decide))).2 rfl
  · exact (h '-' _ (.char _ (by decide))).1 rfl

theorem not_startsAbruptly_dash {r : List Char}
    (h : ∀ c back, Text.Gives r c back → c ≠ '>') : ¬ StartsAbruptly ('-' :: r) := by
  rintro (⟨back, hback⟩ | ⟨back, hback⟩)
  · cases hback
  · obtain rfl := (List.cons.inj hback).2
    exact h '>' back (.char back (by decide)) rfl

/-- What may stand at the end of a comment that is not closed, and is no part of it. -/
def danglingEnds : List (List Char) := ["--!".toList, "--".toList, "-".toList, []]

/-- The comment in front of a text, where it ends, has this value, and then comes this text.  If the
comment is not closed, nothing does. -/
inductive CommentEnds (r : List Char) : List Char → Option (List Char) → Prop
  | abrupt {closer rest : List Char} (hr : r = closer ++ rest)
      (hc : closer = ['>'] ∨ closer = ['-', '>']) : CommentEnds r [] (some rest)
  | closed {p : Nat} {closer rest : List Char} (hstart : ¬ StartsAbruptly r)
      (hr : r.drop p = closer ++ rest) (hc : closer ∈ commentClosers)
      (hfirst : ∀ q < p, ¬ ClosesCommentAt r q) :
      CommentEnds r (Text.unifyBreaks (r.take p)) (some rest)
  | unclosed {value dangling : List Char} (hstart : ¬ StartsAbruptly r)
      (hnone : ∀ p, ¬ ClosesCommentAt r p) (hvalue : value ++ dangling = Text.unifyBreaks r)
      (hd : dangling ∈ danglingEnds) (hsuffix : dangling <:+ r)
      (hlongest : ∀ other ∈ danglingEnds, other <:+ r → other.length ≤ dangling.length) :
      CommentEnds r value none

namespace Dashes

variable {d : Dashes} {u r rest front back value : List Char} {c : Char} {p q : Nat}

theorem text_mem_danglingEnds (d : Dashes) : d.text ∈ danglingEnds := by cases d <;> decide

theorem exists_text_of_mem {dangling : List Char} (h : dangling ∈ danglingEnds) :
    ∃ d : Dashes, d.text = dangling := by
  simp only [danglingEnds, List.mem_cons, List.not_mem_nil, or_false] at h
  rcases h with rfl | rfl | rfl | rfl
  · exact ⟨bang, rfl⟩
  · exact ⟨two, rfl⟩
  · exact ⟨one, rfl⟩
  · exact ⟨none, rfl⟩

theorem two_le_length (h : d.isClosing = true) : 2 ≤ d.text.length := by
  cases d with
  | none | one => cases h
  | two | bang => decide

theorem length_le_three (d : Dashes) : d.text.length ≤ 3 := by cases d <;> decide

/-- A closer is dashes of that kind with a `>`. -/
theorem mem_commentClosers_iff {closer : List Char} :
    closer ∈ commentClosers ↔ ∃ d : Dashes, d.isClosing = true ∧ closer = d.text ++ ['>'] := by
  constructor
  · intro h
    simp only [commentClosers, List.mem_cons, List.not_mem_nil, or_false] at h
    rcases h with rfl | rfl
    · exact ⟨two, rfl, rfl⟩
    · exact ⟨bang, rfl, rfl⟩
  · rintro ⟨d, hd, rfl⟩
    cases d with
    | none | one => cases hd
    | two | bang => decide

/-- No comment is closed within the text. -/
def Open (u : List Char) : Prop :=
  ∀ front back, u = front ++ '>' :: back → (behind front).isClosing = false

theorem open_nil : Open [] := by
  intro front back h
  simp at h

theorem Open.concat (h : Open u) (hc : c = '>' → (behind u).isClosing = false) : Open (u ++ [c]) := by
  intro front back heq
  rcases List.eq_nil_or_concat back with rfl | ⟨back, x, rfl⟩
  · obtain ⟨rfl, hlast⟩ := List.append_inj' heq rfl
    exact hc (List.singleton_inj.1 hlast)
  · rw [List.concat_eq_append, ← List.cons_append, ← List.append_assoc] at heq
    exact h front back (List.append_inj' heq rfl).1

/-- Where a comment is closed, a `>` stands behind dashes that it closes. -/
theorem exists_of_closesCommentAt (h : ClosesCommentAt r q) : ∃ (d : Dashes) (front back : List Char),
    d.isClosing = true ∧ r = front ++ '>' :: back ∧ behind front = d ∧
      front.length = q + d.text.length := by
  obtain ⟨closer, hcloser, back, hr⟩ := h
  obtain ⟨d, hd, rfl⟩ := mem_commentClosers_iff.1 hcloser
  have hq : q ≤ r.length := by
    by_contra hlt
    rw [List.drop_of_length_le (by omega)] at hr
    simp at hr
  refine ⟨d, r.take q ++ d.text, back, hd, ?_, behind_eq ⟨r.take q, rfl⟩ hd, ?_⟩
  · calc r = r.take q ++ r.drop q := (List.take_append_drop q r).symm
      _ = r.take q ++ (d.text ++ ['>'] ++ back) := by rw [hr]
      _ = r.take q ++ d.text ++ '>' :: back := by simp
  · rw [List.length_append, List.length_take, Nat.min_eq_left hq]

theorem Open.not_closesCommentAt (h : Open r) (q : Nat) : ¬ ClosesCommentAt r q := by
  intro hq
  obtain ⟨d, front, back, hd, hr, hbehind, -⟩ := exists_of_closesCommentAt hq
  have hopen := h front back hr
  rw [hbehind, hd] at hopen
  cases hopen

/-- The first `>` that closes a comment belongs to the first closer: of two closers, the one that ends
first starts first. -/
theorem Open.first (h : Open u) (hr : r = u ++ '>' :: rest) (hp : u.length = p + (behind u).text.length)
    (hclosing : (behind u).isClosing = true) (hq : q < p) : ¬ ClosesCommentAt r q := by
  intro hcloses
  obtain ⟨d, front, back, hd, hfront, hbehind, hlength⟩ := exists_of_closesCommentAt hcloses
  have hsame : front = u := by
    rw [hfront] at hr
    rcases List.append_eq_append_iff.1 hr with ⟨as, rfl, htail⟩ | ⟨bs, rfl, htail⟩
    · cases as with
      | nil => rw [List.append_nil]
      | cons x as =>
        -- the closer would stand within the text that has none
        obtain ⟨rfl, -⟩ := List.cons.inj htail
        have hopen := h front as rfl
        rw [hbehind, hd] at hopen
        cases hopen
    · have htwo := two_le_length hclosing
      have hthree := d.length_le_three
      rw [List.length_append] at hlength
      have hbs : bs = [] := List.eq_nil_of_length_eq_zero (by omega)
      rw [hbs, List.append_nil]
  subst hsame
  rw [hbehind] at hp
  omega

/-- A `>` behind dashes that it closes ends the comment. -/
theorem Open.commentEnds (h : Open u) (hstart : ¬ StartsAbruptly r) (hr : r = u ++ '>' :: rest)
    (hclosing : (behind u).isClosing = true)
    (hvalue : value ++ (behind u).text ++ Text.unifyBreaks ('>' :: rest) = Text.unifyBreaks r) :
    CommentEnds r value (some rest) := by
  obtain ⟨body, hbody⟩ := behind_suffix u
  have hsplit : r = body ++ ((behind u).text ++ '>' :: rest) := by
    rw [hr, ← List.append_assoc, hbody]
  have hhead : ((behind u).text ++ '>' :: rest).head? ≠ some '\n' := by
    cases hb : behind u <;> simp [text]
  have hplain : Text.unifyBreaks ((behind u).text ++ '>' :: rest) =
      (behind u).text ++ Text.unifyBreaks ('>' :: rest) := by
    cases hb : behind u <;> simp [text, Text.unifyBreaks]
  have hbodyValue : value = Text.unifyBreaks body := by
    rw [hsplit, Text.unifyBreaks_append hhead, hplain, List.append_assoc] at hvalue
    exact List.append_cancel_right hvalue
  have hp : u.length = body.length + (behind u).text.length := by
    rw [← List.length_append, hbody]
  have htake : r.take body.length = body := by rw [hsplit, List.take_left]
  rw [hbodyValue, ← htake]
  refine .closed hstart ?_ (mem_commentClosers_iff.2 ⟨behind u, hclosing, rfl⟩)
    fun q hq => h.first hr hp hclosing hq
  conv_lhs => rw [hsplit, List.drop_left]
  simp

/-- A comment that is not closed goes to the end of the text. -/
theorem Open.commentEnds_none (h : Open r) (hstart : ¬ StartsAbruptly r)
    (hvalue : value ++ (behind r).text = Text.unifyBreaks r) : CommentEnds r value .none := by
  refine .unclosed hstart h.not_closesCommentAt hvalue (text_mem_danglingEnds _) (behind_suffix r) ?_
  intro other hother hsuffix
  obtain ⟨d, rfl⟩ := exists_text_of_mem hother
  exact length_le hsuffix

/-! ## From character to character -/

/-- It makes no difference for the next character what a text ends with. -/
structure Agree (d b : Dashes) (c : Char) : Prop where
  next : d.next c = b.next c
  closing : c = '>' → d = b ∨ (d.isClosing = false ∧ b.isClosing = false)

theorem Agree.trans {d' b : Dashes} (h : d'.Agree d c) (h' : d.Agree b c) : d'.Agree b c := by
  refine ⟨h.next.trans h'.next, fun hc => ?_⟩
  rcases h.closing hc with rfl | ⟨hd', hd⟩
  · exact h'.closing hc
  · rcases h'.closing hc with rfl | ⟨-, hb⟩
    · exact .inr ⟨hd', hd⟩
    · exact .inr ⟨hd', hb⟩

/-- Up to the text `rest`, the comment in front of `r` is read: its value so far is `value`, and the
dashes `d` are not decided on. -/
structure Within (r : List Char) (d : Dashes) (value rest : List Char) : Prop where
  read : ∃ u, u ++ rest = r ∧ Open u ∧ (rest = [] → d = behind u) ∧
    ∀ c rest', Text.Gives rest c rest' → d.Agree (behind u) c
  value : value ++ d.text ++ Text.unifyBreaks rest = Text.unifyBreaks r

theorem Within.start (r : List Char) : Within r none [] r :=
  ⟨⟨[], rfl, open_nil, fun _ => rfl, fun _ _ _ => ⟨rfl, fun _ => .inl rfl⟩⟩, rfl⟩

/-- A character more is read. -/
theorem exists_read (h : Text.Gives rest c back) : ∃ raw, rest = raw ++ back ∧
    ∀ u, behind (u ++ raw) = (behind u).next c ∧
      (Open u → (c = '>' → (behind u).isClosing = false) → Open (u ++ raw)) := by
  have hreturn : ∀ d : Dashes, d.next '\r' = none := fun d => next_of_ne (by decide) (by decide)
  have hfeed : ∀ d : Dashes, d.next '\n' = none := fun d => next_of_ne (by decide) (by decide)
  cases h with
  | pair =>
    refine ⟨['\r', '\n'], rfl, fun u => ⟨?_, fun hu _ => ?_⟩⟩
    · rw [List.append_cons, behind_concat, hfeed, hfeed]
    · rw [List.append_cons]
      exact (hu.concat (absurd · (by decide))).concat (absurd · (by decide))
  | lone =>
    refine ⟨['\r'], rfl, fun u => ⟨?_, fun hu _ => hu.concat (absurd · (by decide))⟩⟩
    rw [behind_concat, hreturn, hfeed]
  | char _ hc =>
    exact ⟨[c], rfl, fun u => ⟨behind_concat u c, fun hu hclosing => hu.concat hclosing⟩⟩

theorem Within.takes {d' : Dashes} {w : List Char} (h : Within r d value rest)
    (hgives : Text.Gives rest c back) (hd : d' = d.next c) (hw : w ++ d'.text = d.text ++ [c])
    (hc : c = '>' → d.isClosing = false) : Within r d' (value ++ w) back := by
  obtain ⟨u, hu, hopen, -, hagree⟩ := h.read
  obtain ⟨raw, hraw, hread⟩ := exists_read hgives
  have hsame := hagree c back hgives
  obtain ⟨hbehind, hstays⟩ := hread u
  have heq : d' = behind (u ++ raw) := by rw [hd, hbehind, hsame.next]
  refine ⟨⟨u ++ raw, ?_, ?_, fun _ => heq, fun x _ _ => heq ▸ ⟨rfl, fun _ => .inl rfl⟩⟩, ?_⟩
  · rw [List.append_assoc, ← hraw, hu]
  · refine hstays hopen fun hx => ?_
    rcases hsame.closing hx with hb | ⟨-, hb⟩
    · exact hb ▸ hc hx
    · exact hb
  · calc value ++ w ++ d'.text ++ Text.unifyBreaks back
        = value ++ (w ++ d'.text) ++ Text.unifyBreaks back := by simp
      _ = value ++ d.text ++ (c :: Text.unifyBreaks back) := by simp [hw]
      _ = value ++ d.text ++ Text.unifyBreaks rest := by rw [hgives.unifyBreaks]
      _ = Text.unifyBreaks r := h.value

theorem Within.keeps {d' : Dashes} {w : List Char} (h : Within r d value rest)
    (hend : rest = [] → d' = d) (hagree : ∀ c back, Text.Gives rest c back → d'.Agree d c)
    (hw : w ++ d'.text = d.text) : Within r d' (value ++ w) rest := by
  obtain ⟨u, hu, hopen, hlast, hsame⟩ := h.read
  refine ⟨⟨u, hu, hopen, fun hrest => (hend hrest).trans (hlast hrest), ?_⟩, ?_⟩
  · intro c back hgives
    exact (hagree c back hgives).trans (hsame c back hgives)
  · rw [← h.value, ← hw, List.append_assoc value]

theorem Within.closes (h : Within r d value rest) (hstart : ¬ StartsAbruptly r)
    (hgives : Text.Gives rest '>' back) (hd : d.isClosing = true) :
    CommentEnds r value (some back) := by
  obtain ⟨u, hu, hopen, -, hsame⟩ := h.read
  have hrest : rest = '>' :: back := hgives.eq_cons (by decide)
  have hbehind : d = behind u := by
    refine ((hsame _ _ hgives).closing rfl).resolve_right fun hno => ?_
    rw [hno.1] at hd
    cases hd
  subst hrest
  refine hopen.commentEnds hstart hu.symm (hbehind ▸ hd) ?_
  rw [← hbehind]
  exact h.value

theorem Within.ends (h : Within r d value []) (hstart : ¬ StartsAbruptly r) :
    CommentEnds r value .none := by
  obtain ⟨u, hu, hopen, hlast, -⟩ := h.read
  rw [List.append_nil] at hu
  subst hu
  refine hopen.commentEnds_none hstart ?_
  rw [← hlast rfl]
  simpa [Text.unifyBreaks] using h.value

end Dashes
end TemplateSyntax
