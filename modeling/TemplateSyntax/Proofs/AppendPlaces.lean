import TemplateSyntax.Proofs.JoinedReading
import TemplateSyntax.Proofs.LineSearch
import TemplateSyntax.Proofs.Spots

/-! # Places in a text that goes on

A text may go on behind another one.  The places of the first text stay what they are, and those of the
second one are moved by the size of the first.  So the diagnostics of both are in order if those of the
second stand behind those of the first. -/

namespace TemplateSyntax

open Text (byteLength)

/-! ## What stays where it is -/

namespace Move

@[simp] theorem refl_span : Move.refl.span = id := rfl
@[simp] theorem refl_extent : Move.refl.extent = id := rfl
@[simp] theorem refl_token : Move.refl.token = id := rfl
@[simp] theorem refl_diagnostic : Move.refl.diagnostic = id := rfl
@[simp] theorem refl_shape {κ : Type} : (Move.refl.shape : Shape κ → Shape κ) = id := rfl
@[simp] theorem refl_filterArgument : Move.refl.filterArgument = id := rfl
@[simp] theorem refl_variableRef : Move.refl.variableRef = id := rfl
@[simp] theorem refl_identifier : Move.refl.identifier = id := rfl
@[simp] theorem refl_literal : Move.refl.literal = id := rfl

@[simp] theorem refl_filter : Move.refl.filter = id := by
  funext f
  simp [filter]

@[simp] theorem refl_expression : Move.refl.expression = id := by
  funext e
  cases e <;> simp [expression]

@[simp] theorem refl_reference : Move.refl.reference = id := by
  funext r
  simp [reference]

@[simp] theorem refl_ident : Move.refl.ident = id := rfl

@[simp] theorem refl_declared : Move.refl.declared = id := by
  funext x
  simp [declared]

@[simp] theorem refl_plainAttribute : Move.refl.plainAttribute = id := by
  funext a
  simp [plainAttribute]

@[simp] theorem refl_container : Move.refl.container = id := by
  funext c
  simp [container]

@[simp] theorem refl_argument : Move.refl.argument = id := by
  funext x
  cases x <;> simp [argument]

@[simp] theorem refl_key : Move.refl.key = id := by
  funext k
  simp [key]

@[simp] theorem refl_directive : Move.refl.directive = id := by
  funext d
  simp [directive]

@[simp] theorem refl_anyAttribute : Move.refl.anyAttribute = id := by
  funext x
  cases x <;> simp [anyAttribute]

@[simp] theorem refl_node : Move.refl.node = id := rfl

@[simp] theorem refl_element : Move.refl.element = id := by
  funext e
  simp [element]

@[simp] theorem refl_content : Move.refl.content = id := by
  funext x
  cases x <;> simp [content]

@[simp] theorem refl_treeNode : Move.refl.treeNode = id := by
  funext n
  simp [treeNode]

@[simp] theorem refl_tree : Move.refl.tree = id := by
  funext t
  simp [tree]

end Move

theorem Template.Moved.refl (t : Template) : t.Moved .refl t := by
  constructor <;> simp

/-! ## Lines -/

namespace LineIndex

/-- A text that does not end with a carriage return has its lines in front of those of what follows. -/
theorem startsFrom_append {front : List Char} (h : front.getLast? ≠ some '\r') (back : List Char)
    (pos : Nat) : startsFrom pos (front ++ back) =
      startsFrom pos front ++ startsFrom (pos + byteLength front) back := by
  have htail : ∀ {c : Char} {cs : List Char}, (c :: cs).getLast? ≠ some '\r' →
      cs.getLast? ≠ some '\r' := by
    intro c cs hlast
    cases cs with
    | nil => simp
    | cons d cs => rwa [List.getLast?_cons_cons] at hlast
  have hsize : ∀ {c : Char} (pos : Nat) (cs : List Char), c.utf8Size = 1 →
      pos + byteLength (c :: cs) = pos + 1 + byteLength cs := by
    intro c pos cs hc
    rw [Text.byteLength_cons, hc, Nat.add_assoc]
  induction pos, front using startsFrom.induct with
  | case1 pos => rfl
  | case2 pos cs ih =>
    rw [List.cons_append, startsFrom, startsFrom, ih (htail h), hsize pos cs rfl, List.cons_append]
  | case3 pos cs ih =>
    have hbreak : ∀ tail, startsFrom pos ('\r' :: '\n' :: tail) =
        startsFrom (pos + 1) ('\n' :: tail) := fun tail => startsFrom.eq_3 ..
    rw [List.cons_append, List.cons_append, hbreak, hbreak, ← List.cons_append, ih (htail h),
      hsize pos ('\n' :: cs) rfl]
  | case4 pos cs hne ih =>
    cases cs with
    | nil => simp at h
    | cons c cs =>
      have hc : c ≠ '\n' := fun heq => hne cs (by rw [heq])
      rw [List.cons_append, List.cons_append, startsFrom.eq_4 _ _ (by simpa using hc),
        startsFrom.eq_4 _ _ hne, ← List.cons_append, ih (htail h), hsize pos (c :: cs) rfl,
        List.cons_append]
  | case5 pos c cs h1 h2 ih =>
    rw [List.cons_append, startsFrom.eq_5 _ _ _ h1 h2, startsFrom.eq_5 _ _ _ h1 h2, ih (htail h),
      Text.byteLength_cons, ← Nat.add_assoc]

/-- Up to its end, the offsets of a text are where they are if it goes on. -/
theorem lineCol_append {front : List Char} (h : front.getLast? ≠ some '\r') (back : List Char)
    {offset : Nat} (hle : offset ≤ byteLength front) :
    (ofChars (front ++ back)).lineCol offset = (ofChars front).lineCol offset := by
  have hsize : offset ≤ byteLength (front ++ back) := by
    rw [Text.byteLength_append]
    omega
  rw [lineCol_eq_locate, lineCol_eq_locate, Nat.min_eq_left hle, Nat.min_eq_left hsize,
    startsFrom_append h]
  refine locate_append (fun x hx => ?_) 0 0
  have := lt_of_mem_startsFrom hx
  omega

end LineIndex

/-- So are the offsets of the file. -/
theorem Locator.position_append {front : List Char} (h : front.getLast? ≠ some '\r')
    (back : List Char) (a : Origin) {x : Nat}
    (hx : x ≤ (ofChars front a).host (byteLength front)) :
    (ofChars (front ++ back) a).position x = (ofChars front a).position x := by
  have hle : x - a.offset ≤ byteLength front := by
    have hhost : x ≤ a.offset + byteLength front := hx
    omega
  unfold position relative ofChars
  dsimp only
  rw [LineIndex.lineCol_append h back hle]
  rfl

/-! ## Diagnostics -/

namespace Template

/-- Where the condition holds of nothing in the second list, it is looked for in the first one only. -/
theorem takeWhile_append_of_none {α : Type} {p : α → Bool} (front : List α) {back : List α}
    (h : ∀ x ∈ back, p x = false) : (front ++ back).takeWhile p = front.takeWhile p ∧
      (front ++ back).dropWhile p = front.dropWhile p ++ back := by
  induction front with
  | nil =>
    cases back with
    | nil => exact ⟨rfl, rfl⟩
    | cons x back => simp [h x (List.mem_cons_self ..)]
  | cons x front ih =>
    rw [List.cons_append, List.takeWhile_cons, List.takeWhile_cons, List.dropWhile_cons,
      List.dropWhile_cons, ih.1, ih.2]
    split <;> exact ⟨rfl, rfl⟩

/-- A diagnostic comes behind those that stand in front of it, and in front of the others. -/
theorem inOrder_cons (d : Diagnostic) (ds : List Diagnostic) :
    inOrder (d :: ds) = (inOrder ds).takeWhile (·.offset < d.offset) ++
      d :: (inOrder ds).dropWhile (·.offset < d.offset) := by
  have htrans : ∀ x y z : Diagnostic, decide (x.offset ≤ y.offset) = true →
      decide (y.offset ≤ z.offset) = true → decide (x.offset ≤ z.offset) = true := by
    simp only [decide_eq_true_eq]
    exact fun x y z => Nat.le_trans
  have htotal : ∀ x y : Diagnostic,
      (decide (x.offset ≤ y.offset) || decide (y.offset ≤ x.offset)) = true := by
    simp only [Bool.or_eq_true, decide_eq_true_eq]
    exact fun x y => Nat.le_total ..
  obtain ⟨front, back, hcons, hrest, hfront⟩ := List.mergeSort_cons htrans htotal d ds
  have hsorted : (front ++ d :: back).Pairwise fun x y => decide (x.offset ≤ y.offset) = true :=
    hcons ▸ List.pairwise_mergeSort htrans htotal (d :: ds)
  have hbehind := (List.pairwise_cons.1 (List.pairwise_append.1 hsorted).2.1).1
  have hall : ∀ x ∈ front, decide (x.offset < d.offset) = true := fun x hx => by
    simpa using hfront x hx
  have hnone : ∀ x ∈ back, decide (x.offset < d.offset) = false := fun x hx => by
    simpa using hbehind x hx
  obtain ⟨htake, hdrop⟩ := takeWhile_append_of_none front hnone
  unfold inOrder
  rw [hcons, hrest, htake, hdrop, List.takeWhile_eq_self_iff.2 hall, List.dropWhile_eq_nil_iff.2 hall,
    List.nil_append]

/-- The diagnostics in front of an offset, in order, come in front of the others. -/
theorem inOrder_split (k : Nat) (ds : List Diagnostic) : inOrder ds =
    inOrder (ds.filter (·.offset < k)) ++ inOrder (ds.filter (k ≤ ·.offset)) := by
  have hmem : ∀ {d : Diagnostic} {ds : List Diagnostic}, d ∈ inOrder ds ↔ d ∈ ds :=
    (List.mergeSort_perm _ _).mem_iff
  induction ds with
  | nil => simp [inOrder]
  | cons d ds ih =>
    rw [inOrder_cons, ih]
    by_cases hd : d.offset < k
    · -- those behind stay behind the diagnostic
      have hnone : ∀ x ∈ inOrder (ds.filter (k ≤ ·.offset)), decide (x.offset < d.offset) = false := by
        intro x hx
        have hle : k ≤ x.offset := by simpa using List.of_mem_filter (hmem.1 hx)
        exact decide_eq_false (by omega)
      obtain ⟨htake, hdrop⟩ := takeWhile_append_of_none (inOrder (ds.filter (·.offset < k))) hnone
      rw [htake, hdrop, List.filter_cons_of_pos (by simpa using hd),
        List.filter_cons_of_neg (by simpa using hd), inOrder_cons, List.append_assoc,
        List.cons_append]
    · -- those in front stay in front of it
      have hall : ∀ x ∈ inOrder (ds.filter (·.offset < k)), decide (x.offset < d.offset) = true := by
        intro x hx
        have hlt : x.offset < k := by simpa using List.of_mem_filter (hmem.1 hx)
        exact decide_eq_true (by omega)
      rw [List.takeWhile_append_of_pos hall, List.dropWhile_append_of_pos hall,
        List.filter_cons_of_neg (by simpa using hd), List.filter_cons_of_pos (by simpa using hd),
        inOrder_cons, List.append_assoc]

/-- Diagnostics of two texts, found pass by pass, where those of the second text stand behind those of the
first one. -/
theorem inOrder_passes {m m' : Move} {k : Nat} {passes : List (List Diagnostic × List Diagnostic)}
    (hfront : ∀ d ∈ passes.flatMap Prod.fst, m.offset d.offset < k)
    (hback : ∀ d ∈ passes.flatMap Prod.snd, k ≤ m'.offset d.offset) :
    inOrder (passes.flatMap fun x => x.1.map m.diagnostic ++ x.2.map m'.diagnostic) =
      (inOrder (passes.flatMap Prod.fst)).map m.diagnostic ++
        (inOrder (passes.flatMap Prod.snd)).map m'.diagnostic := by
  have hparts : (passes.flatMap fun x => x.1.map m.diagnostic ++ x.2.map m'.diagnostic).filter
        (·.offset < k) = (passes.flatMap Prod.fst).map m.diagnostic ∧
      (passes.flatMap fun x => x.1.map m.diagnostic ++ x.2.map m'.diagnostic).filter
        (k ≤ ·.offset) = (passes.flatMap Prod.snd).map m'.diagnostic := by
    induction passes with
    | nil => exact ⟨rfl, rfl⟩
    | cons x passes ih =>
      rw [List.flatMap_cons, List.forall_mem_append] at hfront hback
      obtain ⟨ih, ih'⟩ := ih hfront.2 hback.2
      have h1 : (x.1.map m.diagnostic).filter (·.offset < k) = x.1.map m.diagnostic :=
        List.filter_eq_self.2 (by simpa using hfront.1)
      have h2 : (x.2.map m'.diagnostic).filter (·.offset < k) = [] :=
        List.filter_eq_nil_iff.2 (by simpa using hback.1)
      have h3 : (x.1.map m.diagnostic).filter (k ≤ ·.offset) = [] :=
        List.filter_eq_nil_iff.2 (by simpa using hfront.1)
      have h4 : (x.2.map m'.diagnostic).filter (k ≤ ·.offset) = x.2.map m'.diagnostic :=
        List.filter_eq_self.2 (by simpa using hback.1)
      simp only [List.flatMap_cons, List.filter_append, List.map_append, ih, ih', h1, h2, h3, h4,
        List.append_nil, List.nil_append, and_self]
  rw [inOrder_split k, hparts.1, hparts.2, inOrder_map, inOrder_map]

end Template
end TemplateSyntax
