import Mathlib.Data.List.Basic
import TemplateSyntax.Proofs.FragmentParts

/-! # Where a text is cut at filters

The shallow scan looks no further than a token goes: a token that ends in front of some place is the
same one when the text is cut off there.  So the text between two marks of filters has the tokens alone
that it has inside of the whole text, and no mark that it could be cut at. -/

namespace TemplateSyntax.Script.Scan

open Text (byteLength Between)

variable {cs : List Char} {k : Nat}

/-! ## Tokens of a text that is cut off -/

theorem length_takeWhile_take {p : Char → Bool} (h : (cs.takeWhile p).length ≤ k) :
    ((cs.take k).takeWhile p).length = (cs.takeWhile p).length := by
  induction cs generalizing k with
  | nil => rw [List.take_nil]
  | cons c cs ih =>
    cases k with
    | zero => rw [List.length_eq_zero_iff.1 (Nat.le_zero.1 h), List.take_zero, List.takeWhile_nil]
    | succ k =>
      rw [List.take_succ_cons]
      by_cases hc : p c
      · rw [List.takeWhile_cons_of_pos hc, List.length_cons, Nat.add_le_add_iff_right] at h
        rw [List.takeWhile_cons_of_pos hc, List.takeWhile_cons_of_pos hc, List.length_cons,
          List.length_cons, ih h]
      · rw [List.takeWhile_cons_of_neg hc, List.takeWhile_cons_of_neg hc]

/-- A character that starts no escape starts none when the text is cut off. -/
theorem not_escape_take {c : Char}
    (h : ∀ (d : Char) (ds : List Char), c = '\\' → cs = d :: ds → False) (k : Nat) :
    ∀ (d : Char) (ds : List Char), c = '\\' → cs.take k = d :: ds → False := by
  rintro d ds hc heq
  cases cs with
  | nil => simp at heq
  | cons e es => exact h e es hc rfl

theorem stringEnd_take {quote : Char} (hquote : quote ≠ '\\') (h : (stringEnd quote cs).1 ≤ k) :
    stringEnd quote (cs.take k) = stringEnd quote cs := by
  fun_induction stringEnd quote cs generalizing k with
  | case1 => rw [List.take_nil, stringEnd]
  | case2 c cs hc =>
    match k with
    | 0 => simp at h
    | 1 => simp [stringEnd, hquote.symm]
    | k + 2 => simp [stringEnd, hc]
  | case3 c cs hc n closed hn ih =>
    match k with
    | 0 | 1 => simp at h
    | k + 2 => simp [stringEnd, hc, ih (by simpa [hn] using h), hn]
  | case4 c cs hne hc =>
    cases k with
    | zero => simp at h
    | succ k => rw [List.take_succ_cons, stringEnd.eq_3 _ _ _ (not_escape_take hne k), if_pos hc]
  | case5 c cs hne hc hc' =>
    cases k with
    | zero => rw [List.take_zero, stringEnd]
    | succ k =>
      rw [List.take_succ_cons, stringEnd.eq_3 _ _ _ (not_escape_take hne k), if_neg hc, if_pos hc']
  | case6 c cs hne hc hc' n closed hn ih =>
    cases k with
    | zero => simp at h
    | succ k =>
      rw [List.take_succ_cons, stringEnd.eq_3 _ _ _ (not_escape_take hne k), if_neg hc, if_neg hc',
        ih (by simpa [hn] using h), hn]

theorem templateEnd_take (h : (templateEnd cs).1 ≤ k) :
    templateEnd (cs.take k) = templateEnd cs := by
  fun_induction templateEnd cs generalizing k with
  | case1 => rw [List.take_nil, templateEnd]
  | case2 c cs n closed hn ih =>
    match k with
    | 0 | 1 => simp at h
    | k + 2 => simp [templateEnd, ih (by simpa [hn] using h), hn]
  | case3 c cs hne hc =>
    cases k with
    | zero => simp at h
    | succ k => rw [List.take_succ_cons, templateEnd.eq_3 _ _ (not_escape_take hne k), if_pos hc]
  | case4 c cs hne hc n closed hn ih =>
    cases k with
    | zero => simp at h
    | succ k =>
      rw [List.take_succ_cons, templateEnd.eq_3 _ _ (not_escape_take hne k), if_neg hc,
        ih (by simpa [hn] using h), hn]

/-- A count that is made of another one leaves that one no room below the difference. -/
theorem eq_none_of_map_add_le {o : Option Nat} {d : Nat} (h : ∀ n, o.map (· + d) = some n → n ≤ k)
    (hk : k < d) : o = none := by
  cases o with
  | none => rfl
  | some n =>
    have hle : n + d ≤ k := h (n + d) rfl
    omega

theorem le_of_map_add_le {o : Option Nat} {d : Nat}
    (h : ∀ n, o.map (· + d) = some n → n ≤ k + d) : ∀ n, o = some n → n ≤ k := by
  rintro n rfl
  exact Nat.le_of_add_le_add_right (h (n + d) rfl)

theorem commentEnd?_take (h : ∀ n, commentEnd? cs = some n → n ≤ k) :
    commentEnd? (cs.take k) = commentEnd? cs := by
  fun_induction commentEnd? cs generalizing k with
  | case1 cs =>
    obtain ⟨k, rfl⟩ := Nat.exists_eq_add_of_le' (h 2 rfl)
    simp [commentEnd?]
  | case2 c cs hne ih =>
    cases k with
    | zero => rw [eq_none_of_map_add_le h Nat.one_pos]; rfl
    | succ k =>
      have hne' : ∀ ds, c = '*' → cs.take k = '/' :: ds → False := by
        rintro ds hc heq
        obtain ⟨es, rfl⟩ : ∃ es, cs = '/' :: es := by
          cases cs <;> cases k <;> simp_all
        exact hne es hc rfl
      rw [List.take_succ_cons, commentEnd?.eq_2 _ _ hne', ih (le_of_map_add_le h)]
  | case3 => rw [List.take_nil]; rfl

theorem regexEnd?_take {inClass : Bool} (h : ∀ n, regexEnd? inClass cs = some n → n ≤ k) :
    regexEnd? inClass (cs.take k) = regexEnd? inClass cs := by
  fun_induction regexEnd? inClass cs generalizing k with
  | case1 => rw [List.take_nil, regexEnd?]
  | case2 inClass c cs ih =>
    match k with
    | 0 | 1 => rw [eq_none_of_map_add_le h (by decide)]; simp [regexEnd?]
    | k + 2 => simp only [List.take_succ_cons, regexEnd?, ih (le_of_map_add_le h)]
  | case3 inClass c cs hne hc ih =>
    cases k with
    | zero => rw [eq_none_of_map_add_le h Nat.one_pos]; rfl
    | succ k =>
      rw [List.take_succ_cons, regexEnd?.eq_3 _ _ _ (not_escape_take hne k), if_pos hc,
        ih (le_of_map_add_le h)]
  | case4 inClass c cs hne hc hc' ih =>
    cases k with
    | zero => rw [eq_none_of_map_add_le h Nat.one_pos]; rfl
    | succ k =>
      rw [List.take_succ_cons, regexEnd?.eq_3 _ _ _ (not_escape_take hne k), if_neg hc, if_pos hc',
        ih (le_of_map_add_le h)]
  | case5 inClass c cs hne hc hc' hslash =>
    obtain ⟨k, rfl⟩ := Nat.exists_eq_add_of_le (h _ rfl)
    rw [Nat.add_assoc, Nat.add_comm 1, List.take_succ_cons,
      regexEnd?.eq_3 _ _ _ (not_escape_take hne _), if_neg hc, if_neg hc', if_pos hslash,
      length_takeWhile_take (Nat.le_add_right ..)]
  | case6 inClass c cs hne hc hc' hslash hbreak =>
    cases k with
    | zero => rfl
    | succ k =>
      rw [List.take_succ_cons, regexEnd?.eq_3 _ _ _ (not_escape_take hne k), if_neg hc, if_neg hc',
        if_neg hslash, if_pos hbreak]
  | case7 inClass c cs hne hc hc' hslash hbreak ih =>
    cases k with
    | zero => rw [eq_none_of_map_add_le h Nat.one_pos]; rfl
    | succ k =>
      rw [List.take_succ_cons, regexEnd?.eq_3 _ _ _ (not_escape_take hne k), if_neg hc, if_neg hc',
        if_neg hslash, if_neg hbreak, ih (le_of_map_add_le h)]

theorem head?_take_beq {d : Char} (h : cs.head? = some d → k ≠ 0) :
    ((cs.take k).head? == some d) = (cs.head? == some d) := by
  cases k with
  | zero =>
    rw [List.take_zero, List.head?_nil, Bool.eq_iff_iff, beq_iff_eq, beq_iff_eq]
    exact ⟨nofun, fun hd => absurd rfl (h hd)⟩
  | succ k => cases cs <;> rfl

/-- Behind a slash, a comment is closed or not. -/
theorem blockEnd?_take
    (h : ∀ n, (if cs.head? == some '*' then commentEnd? (cs.drop 1) else none) = some n →
      n + 1 ≤ k) :
    (if (cs.take k).head? == some '*' then commentEnd? ((cs.take k).drop 1) else none) =
      if cs.head? == some '*' then commentEnd? (cs.drop 1) else none := by
  by_cases hstar : cs.head? == some '*'
  · simp only [if_pos hstar] at h ⊢
    cases k with
    | zero =>
      rw [List.take_zero]
      cases hclosed : commentEnd? (cs.drop 1) with
      | none => rfl
      | some n => exact absurd (h n hclosed) (Nat.not_succ_le_zero n)
    | succ k =>
      rw [head?_take_beq fun _ => Nat.succ_ne_zero k, if_pos hstar, List.drop_take,
        Nat.add_sub_cancel]
      exact commentEnd?_take fun n hn => Nat.le_of_succ_le_succ (h n hn)
  · rw [head?_take_beq fun hd => absurd (beq_iff_eq.2 hd) hstar, if_neg hstar, if_neg hstar]

/-- A token that ends in front of a cut is the same one in the text that is cut off. -/
theorem token_take {operand : Bool} {c : Char} (h : (token operand c cs).2 ≤ k) :
    token operand c (cs.take k) = token operand c cs := by
  unfold token at h ⊢
  by_cases hblank : isBlank c
  · simp only [if_pos hblank] at h ⊢
    rw [length_takeWhile_take h]
  simp only [if_neg hblank] at h ⊢
  by_cases hword : isWordStart c
  · simp only [if_pos hword] at h ⊢
    rw [length_takeWhile_take h]
  simp only [if_neg hword] at h ⊢
  by_cases hdigit : c.isDigit
  · simp only [if_pos hdigit] at h ⊢
    rw [length_takeWhile_take h]
  simp only [if_neg hdigit] at h ⊢
  by_cases hquote : c == '"' || c == '\''
  · simp only [if_pos hquote] at h ⊢
    have hne : c ≠ '\\' := by
      rintro rfl
      simp at hquote
    rw [stringEnd_take hne h]
  simp only [if_neg hquote] at h ⊢
  by_cases htick : c == '\x60'
  · simp only [if_pos htick] at h ⊢
    rw [templateEnd_take h]
  simp only [if_neg htick] at h ⊢
  by_cases hpipe : c == '|'
  · simp only [if_pos hpipe] at h ⊢
    rw [head?_take_beq]
    rintro hd rfl
    simp [hd] at h
  simp only [if_neg hpipe] at h ⊢
  by_cases hopening : c == '(' || c == '[' || c == '{'
  · rw [if_pos hopening, if_pos hopening]
  simp only [if_neg hopening] at h ⊢
  by_cases hparen : c == ')'
  · rw [if_pos hparen, if_pos hparen]
  simp only [if_neg hparen] at h ⊢
  by_cases hclosing : c == ']' || c == '}'
  · rw [if_pos hclosing, if_pos hclosing]
  simp only [if_neg hclosing] at h ⊢
  by_cases hslash : c == '/'
  · simp only [if_pos hslash] at h ⊢
    by_cases hline : cs.head? == some '/'
    · simp only [if_pos hline] at h ⊢
      have hk : k ≠ 0 := by
        rintro rfl
        cases cs <;> simp_all
      rw [head?_take_beq fun _ => hk, if_pos hline, length_takeWhile_take h]
    simp only [if_neg hline] at h ⊢
    rw [head?_take_beq fun hd => absurd (beq_iff_eq.2 hd) hline, if_neg hline]
    have hblock : ∀ n, (if cs.head? == some '*' then commentEnd? (cs.drop 1) else none) = some n →
        n + 1 ≤ k := by
      intro n hn
      simpa only [hn] using h
    rw [blockEnd?_take hblock]
    cases hclosed : if cs.head? == some '*' then commentEnd? (cs.drop 1) else none with
    | some n => rfl
    | none =>
      simp only [hclosed] at h ⊢
      cases operand with
      | true => rfl
      | false =>
        simp only [Bool.false_eq_true, if_false] at h ⊢
        rw [regexEnd?_take fun n hn => by simpa only [hn] using h]
  · rw [if_neg hslash, if_neg hslash]

/-! ## Tokens in a row -/

/-- The text of tokens in a row. -/
def written (ts : List ScanToken) : List Char := (ts.map ScanToken.text).flatten

@[simp] theorem written_nil : written [] = [] := rfl

@[simp] theorem written_cons (t : ScanToken) (ts : List ScanToken) :
    written (t :: ts) = t.text ++ written ts := rfl

@[simp] theorem written_append (ts us : List ScanToken) :
    written (ts ++ us) = written ts ++ written us := by
  rw [written, List.map_append, List.flatten_append]
  rfl

/-- Whether a slash divides behind tokens. -/
def operandBehind (operand : Bool) (ts : List ScanToken) : Bool :=
  ts.foldl (fun operand t => if t.kind.isTrivia then operand else t.kind.endsOperand) operand

/-- The depth of brackets behind tokens. -/
def depthBehind (depth : Nat) (ts : List ScanToken) : Nat :=
  ts.foldl (fun depth t => depthAfter depth t.kind) depth

theorem depthBehind_append (depth : Nat) (ts us : List ScanToken) :
    depthBehind depth (ts ++ us) = depthBehind (depthBehind depth ts) us := List.foldl_append

variable {operand : Bool} {ts us : List ScanToken}

theorem written_tokensFrom (operand : Bool) (cs : List Char) :
    written (tokensFrom operand cs) = cs := flatten_tokensFrom operand cs

theorem tokensFrom_cons (operand : Bool) (c : Char) (cs : List Char) :
    tokensFrom operand (c :: cs) =
      ⟨(token operand c cs).1, c :: cs.take (token operand c cs).2⟩ ::
        tokensFrom (if (token operand c cs).1.isTrivia then operand
          else (token operand c cs).1.endsOperand) (cs.drop (token operand c cs).2) := by
  rw [tokensFrom]

theorem text_ne_nil {t : ScanToken} (h : t ∈ tokensFrom operand cs) : t.text ≠ [] := by
  fun_induction tokensFrom operand cs with
  | case1 => simp at h
  | case2 operand c cs kind n htoken ih =>
    rcases List.mem_cons.1 h with rfl | h
    · simp
    · exact ih h

/-- The first tokens of a text have the text that they take to themselves, and what stands behind them
has the others. -/
theorem tokensFrom_append (h : tokensFrom operand cs = ts ++ us) :
    tokensFrom operand (written ts) = ts ∧
      tokensFrom (operandBehind operand ts) (written us) = us := by
  induction ts generalizing operand cs with
  | nil =>
    refine ⟨by rw [written_nil, tokensFrom], ?_⟩
    rw [← List.nil_append us, ← h, written_tokensFrom, h]
    exact h
  | cons t ts ih =>
    cases cs with
    | nil => simp [tokensFrom] at h
    | cons c cs =>
      rw [tokensFrom_cons, List.cons_append, List.cons.injEq] at h
      obtain ⟨rfl, hrest⟩ := h
      have hcs : cs.drop (token operand c cs).2 = written ts ++ written us := by
        rw [← written_append, ← hrest, written_tokensFrom]
      obtain ⟨hts, hus⟩ := ih hrest
      refine ⟨?_, hus⟩
      -- The token ends in front of the place where the text is cut off.
      have hcut : cs.take (token operand c cs).2 ++ written ts =
          cs.take ((token operand c cs).2 + (written ts).length) := by
        rw [List.take_add, hcs, List.take_left]
      rw [written_cons, List.cons_append, hcut, tokensFrom_cons,
        token_take (Nat.le_add_right ..), List.take_take, Nat.min_eq_left (Nat.le_add_right ..),
        List.drop_take, Nat.add_sub_cancel_left, hcs, List.take_left]
      exact congrArg _ hts

/-! ## Stretches between marks -/

/-- A `|` that is a token of its own. -/
def mark : ScanToken := ⟨.pipe, ['|']⟩

theorem eq_mark {t : ScanToken} (h : t ∈ tokensFrom operand cs) (hk : t.kind = .pipe) : t = mark := by
  fun_induction tokensFrom operand cs with
  | case1 => simp at h
  | case2 operand c cs kind n htoken ih =>
    rcases List.mem_cons.1 h with rfl | h
    · obtain rfl : kind = .pipe := hk
      obtain ⟨rfl, rfl⟩ := token_pipe htoken
      rfl
    · exact ih h

/-- Behind the first tokens `before` there is a `|` that is outside of brackets. -/
def MarkBehind (depth : Nat) (ts before : List ScanToken) : Prop :=
  depthBehind depth before = 0 ∧ ∃ t after, ts = before ++ t :: after ∧ t.kind = .pipe

/-- No `|` of the tokens is outside of brackets. -/
def Uncut (depth : Nat) (ts : List ScanToken) : Prop := ∀ before, ¬ MarkBehind depth ts before

/-- The tokens `ts` are the stretches `gs` with a mark between each two, and no stretch can be cut. -/
inductive Stretches : List ScanToken → List (List ScanToken) → Prop
  | last {g : List ScanToken} (h : Uncut 0 g) : Stretches g [g]
  | cut {g ts : List ScanToken} {gs : List (List ScanToken)} (h : Uncut 0 g)
    (hdepth : depthBehind 0 g = 0) (hrest : Stretches ts gs) : Stretches (g ++ mark :: ts) (g :: gs)

variable {depth : Nat} {t : ScanToken} {g : List ScanToken} {gs : List (List ScanToken)}

theorem uncut_nil : Uncut depth [] := by
  rintro (_ | _) ⟨-, _, _, heq, -⟩ <;> cases heq

theorem uncut_cons : Uncut depth (t :: ts) ↔
    ¬ (t.kind = .pipe ∧ depth = 0) ∧ Uncut (depthAfter depth t.kind) ts := by
  constructor
  · refine fun h => ⟨fun ⟨hk, hd⟩ => h [] ⟨hd, t, ts, rfl, hk⟩, ?_⟩
    rintro before ⟨hd, u, after, rfl, hk⟩
    exact h (t :: before) ⟨hd, u, after, rfl, hk⟩
  · rintro ⟨hnot, h⟩ (_ | ⟨u, before⟩) ⟨hd, v, after, heq, hk⟩
    · obtain ⟨rfl, -⟩ := List.cons.inj heq
      exact hnot ⟨hk, hd⟩
    · obtain ⟨rfl, rfl⟩ := List.cons.inj heq
      exact h before ⟨hd, v, after, rfl, hk⟩

/-- The marks of tokens with a stretch in front are the one behind it and those of the others. -/
theorem markBehind_cut (h : Uncut 0 g) (hdepth : depthBehind 0 g = 0) {before : List ScanToken} :
    MarkBehind 0 (g ++ mark :: ts) before ↔
      before = g ∨ ∃ rest, before = g ++ mark :: rest ∧ MarkBehind 0 ts rest := by
  have hbehind (rest : List ScanToken) :
      depthBehind 0 (g ++ mark :: rest) = depthBehind 0 rest := by
    rw [depthBehind_append, hdepth]
    rfl
  constructor
  · rintro ⟨hd, t, after, heq, hk⟩
    rcases List.append_eq_append_iff.1 heq with ⟨us, rfl, hm⟩ | ⟨us, rfl, hm⟩
    · cases us with
      | nil => exact .inl (List.append_nil g)
      | cons u us =>
        obtain ⟨rfl, rfl⟩ := List.cons.inj hm
        exact .inr ⟨us, rfl, (hbehind us).symm.trans hd, t, after, rfl, hk⟩
    · cases us with
      | nil => exact .inl (List.append_nil before).symm
      | cons u us =>
        obtain ⟨rfl, -⟩ := List.cons.inj hm
        exact absurd ⟨hd, t, us, rfl, hk⟩ (h before)
  · rintro (rfl | ⟨rest, rfl, hd, t, after, rfl, hk⟩)
    · exact ⟨hdepth, mark, ts, rfl, rfl⟩
    · exact ⟨(hbehind rest).trans hd, t, after, by rw [List.append_assoc, List.cons_append], hk⟩

theorem isMark_eq_false (h : ¬ (t.kind = .pipe ∧ depth = 0)) :
    (t.kind == .pipe && depth == 0) = false := by
  simpa using h

theorem splitAt_uncut (h : Uncut depth ts) (start : Nat) (seen : List Char) :
    splitAt depth start seen ts = [⟨start, seen.reverse ++ written ts⟩] := by
  induction ts generalizing depth seen with
  | nil => simp [splitAt]
  | cons t ts ih =>
    obtain ⟨hnot, h⟩ := uncut_cons.1 h
    rw [splitAt, isMark_eq_false hnot, if_neg Bool.false_ne_true, ih h]
    simp

theorem splitAt_cut (h : Uncut depth g) (hdepth : depthBehind depth g = 0) (start : Nat)
    (seen : List Char) (ts : List ScanToken) :
    splitAt depth start seen (g ++ mark :: ts) =
      ⟨start, seen.reverse ++ written g⟩ ::
        splitAt 0 (start + byteLength (seen.reverse ++ written g) + 1) [] ts := by
  induction g generalizing depth seen with
  | nil =>
    obtain rfl : depth = 0 := hdepth
    simp [splitAt, mark, Text.byteLength_reverse]
  | cons t g ih =>
    obtain ⟨hnot, h⟩ := uncut_cons.1 h
    rw [List.cons_append, splitAt, isMark_eq_false hnot, if_neg Bool.false_ne_true, ih h hdepth]
    simp

/-- Tokens are either a single stretch, or there is a first mark. -/
theorem exists_first_cut (hmark : ∀ t ∈ ts, t.kind = .pipe → t = mark) (depth : Nat) :
    Uncut depth ts ∨ ∃ g us, ts = g ++ mark :: us ∧ Uncut depth g ∧ depthBehind depth g = 0 := by
  induction ts generalizing depth with
  | nil => exact .inl uncut_nil
  | cons t ts ih =>
    by_cases hcut : t.kind = .pipe ∧ depth = 0
    · obtain rfl := hmark t List.mem_cons_self hcut.1
      exact .inr ⟨[], ts, rfl, uncut_nil, hcut.2⟩
    · rcases ih (fun u hu => hmark u (List.mem_cons_of_mem t hu)) (depthAfter depth t.kind) with
        h | ⟨g, us, rfl, h, hdepth⟩
      · exact .inl (uncut_cons.2 ⟨hcut, h⟩)
      · exact .inr ⟨t :: g, us, rfl, uncut_cons.2 ⟨hcut, h⟩, hdepth⟩

theorem exists_stretches {ts : List ScanToken} (hmark : ∀ t ∈ ts, t.kind = .pipe → t = mark) :
    ∃ gs, Stretches ts gs := by
  rcases exists_first_cut hmark 0 with h | ⟨g, us, rfl, h, hdepth⟩
  · exact ⟨_, .last h⟩
  · have hus : ∀ t ∈ us, t.kind = .pipe → t = mark := fun t ht => hmark t (by simp [ht])
    obtain ⟨gs, hgs⟩ := exists_stretches hus
    exact ⟨_, .cut h hdepth hgs⟩
termination_by ts.length

namespace Stretches

theorem ne_nil (h : Stretches ts gs) : gs ≠ [] := by
  cases h <;> exact nofun

/-- The parts have the texts of the stretches. -/
theorem map_code (h : Stretches ts gs) (start : Nat) :
    (splitAt 0 start [] ts).map Part.code = gs.map written := by
  induction h generalizing start with
  | last h => simp [splitAt_uncut h]
  | cut h hdepth _ ih => simp [splitAt_cut h hdepth, ih]

theorem splitAt_ne_nil (h : Stretches ts gs) (start : Nat) : splitAt 0 start [] ts ≠ [] := by
  intro hnil
  have hmap := h.map_code start
  rw [hnil] at hmap
  exact h.ne_nil (List.map_eq_nil_iff.1 hmap.symm)

/-- With a `|` between each two, the stretches make up the text. -/
theorem intercalate_written (h : Stretches ts gs) :
    ['|'].intercalate (gs.map written) = written ts := by
  induction h with
  | last => simp
  | @cut g ts gs _ _ hrest ih =>
    obtain ⟨g', gs', rfl⟩ := List.exists_cons_of_ne_nil hrest.ne_nil
    rw [written_append, written_cons, ← ih]
    simp [mark, List.intercalate]

/-- A stretch has its tokens when it stands alone, as no slash divides behind a mark. -/
theorem tokens_written (h : Stretches ts gs) (hts : tokensFrom false cs = ts) :
    ∀ g ∈ gs, tokens (written g) = g := by
  induction h generalizing cs with
  | last =>
    refine List.forall_mem_singleton.2 ?_
    rw [tokens, ← hts, written_tokensFrom]
  | @cut g ts gs _ _ _ ih =>
    obtain ⟨hg, hrest⟩ := tokensFrom_append hts
    obtain ⟨-, hrest⟩ := tokensFrom_append (show tokensFrom _ _ = [mark] ++ ts from hrest)
    exact List.forall_mem_cons.2 ⟨hg, ih hrest⟩

theorem uncut (h : Stretches ts gs) : ∀ g ∈ gs, Uncut 0 g := by
  induction h with
  | last h => exact List.forall_mem_singleton.2 h
  | cut h _ _ ih => exact List.forall_mem_cons.2 ⟨h, ih⟩

/-- Each part but the last ends at a mark, and there is no other mark. -/
theorem exists_end_iff (h : Stretches ts gs) (start i : Nat) :
    (∃ p ∈ (splitAt 0 start [] ts).dropLast, p.start + byteLength p.code = i) ↔
      ∃ before, MarkBehind 0 ts before ∧ start + byteLength (written before) = i := by
  induction h generalizing start with
  | last h =>
    rw [splitAt_uncut h]
    exact ⟨by simp, fun ⟨before, hbefore, _⟩ => absurd hbefore (h before)⟩
  | @cut g ts gs h hdepth hrest ih =>
    have hplace (rest : List ScanToken) : start + byteLength (written (g ++ mark :: rest)) =
        start + byteLength (written g) + 1 + byteLength (written rest) := by
      have hsize : byteLength mark.text = 1 := rfl
      rw [written_append, written_cons, Text.byteLength_append, Text.byteLength_append, hsize]
      omega
    rw [splitAt_cut h hdepth, List.dropLast_cons_of_ne_nil (hrest.splitAt_ne_nil _),
      List.exists_mem_cons_iff, List.reverse_nil, List.nil_append, ih]
    constructor
    · rintro (hend | ⟨rest, hrest, hend⟩)
      · exact ⟨g, (markBehind_cut h hdepth).2 (.inl rfl), hend⟩
      · exact ⟨_, (markBehind_cut h hdepth).2 (.inr ⟨rest, rfl, hrest⟩), (hplace rest).trans hend⟩
    · rintro ⟨before, hbefore, hend⟩
      rcases (markBehind_cut h hdepth).1 hbefore with rfl | ⟨rest, rfl, hrest⟩
      · exact .inl hend
      · exact .inr ⟨rest, hrest, (hplace rest).symm.trans hend⟩

end Stretches

theorem token_bar (operand : Bool) (cs : List Char) :
    token operand '|' cs = if cs.head? == some '|' then (.orOr, 1) else (.pipe, 0) := rfl

/-- A `|` that is a token of its own is not followed by another one. -/
theorem head?_behind_mark {before after : List ScanToken}
    (h : tokensFrom operand cs = before ++ mark :: after) : (written after).head? ≠ some '|' := by
  obtain ⟨-, hrest⟩ := tokensFrom_append h
  change tokensFrom _ ('|' :: written after) = _ at hrest
  rw [tokensFrom_cons, token_bar] at hrest
  intro hbar
  simp [hbar, mark] at hrest

/-- The scan loses nothing, and neither does cutting a text at filters, which leaves parts that are not
cut again.  No token is empty, and the tokens make up the text.  The parts make it up with a `|` between
each two, and each stands at its place.  A part ends and another one follows exactly where a `|` outside
of brackets is a token of its own, which no second `|` follows.  When a part is cut, that part alone
comes of it. -/
theorem splitFilters_stable (code : List Char) :
    (∀ t ∈ tokens code, t.text ≠ []) ∧ written (tokens code) = code ∧
    ['|'].intercalate ((splitFilters code).map Part.code) = code ∧
    (∀ p ∈ splitFilters code, Between code p.start p.code (p.start + byteLength p.code)) ∧
    (∀ i, (∃ p ∈ (splitFilters code).dropLast, p.start + byteLength p.code = i) ↔
      ∃ before, MarkBehind 0 (tokens code) before ∧ byteLength (written before) = i) ∧
    (∀ before after, tokens code = before ++ mark :: after → (written after).head? ≠ some '|') ∧
    ∀ p ∈ splitFilters code, splitFilters p.code = [⟨0, p.code⟩] := by
  obtain ⟨gs, hgs⟩ : ∃ gs, Stretches (tokens code) gs := exists_stretches fun t => eq_mark
  have hcode : (splitFilters code).map Part.code = gs.map written := hgs.map_code 0
  refine ⟨fun t ht => text_ne_nil ht, written_tokensFrom .., ?_, fun p hp => splitFilters_between hp,
    fun i => ?_, fun before after => head?_behind_mark, fun p hp => ?_⟩
  · rw [hcode, hgs.intercalate_written]
    exact written_tokensFrom ..
  · have hends := hgs.exists_end_iff 0 i
    simp only [Nat.zero_add] at hends
    exact hends
  · obtain ⟨g, hg, heq⟩ : ∃ g ∈ gs, written g = p.code := by
      rw [← List.mem_map, ← hcode]
      exact List.mem_map_of_mem hp
    rw [splitFilters, ← heq, hgs.tokens_written rfl g hg, splitAt_uncut (hgs.uncut g hg)]
    rfl

example : (splitFilters "f(a | b) || '|' | /|/g".toList).map Part.code =
    ["f(a | b) || '|' ".toList, " /|/g".toList] := by decide +kernel

end TemplateSyntax.Script.Scan
