import TemplateSyntax.Proofs.CharacterData
import TemplateSyntax.Proofs.NamedValues

/-! # Start tags as they are written

A start tag is written by the tokens from the one that opens it to the one that closes it.  Its attributes
are the names among them, each with the value behind it.  Here is how the two change with one token more:
only the last row of tokens can still grow, and only the last attribute can get a value. -/

namespace TemplateSyntax

variable {ts ts' row front back : List Token} {t o : Token}

open TokenKind (waitsBehind ValuesNamed)

/-! ## Rows of tokens -/

namespace Token

/-- The tokens up to the first one that closes a tag, and that one. -/
def upToClose : List Token → List Token
  | [] => []
  | t :: ts => if t.kind.closesTag then [t] else t :: upToClose ts

/-- For each token that opens a start tag, the tokens from there to the one that closes it, or to the
end. -/
def tagRows : List Token → List (List Token)
  | [] => []
  | t :: ts => if t.kind = .tagOpen then (t :: upToClose ts) :: tagRows ts else tagRows ts

/-- Parts of a tag that does not end with them. -/
def Parts (ts : List Token) : Prop := ∀ t ∈ ts, Mode.tag.after t.kind = some .tag

theorem Parts.closesTag (h : Parts ts) : ∀ t ∈ ts, t.kind.closesTag = false := by
  intro t ht
  have hk := h t ht
  generalize t.kind = k at hk
  cases k <;> first | rfl | cases hk

theorem Parts.kind_ne (h : Parts ts) : ∀ t ∈ ts, t.kind ≠ .tagOpen := by
  intro t ht heq
  have hk := h t ht
  rw [heq] at hk
  cases hk

theorem upToClose_append_of_parts (h : Parts ts) (ts' : List Token) :
    upToClose (ts ++ ts') = ts ++ upToClose ts' := by
  induction ts with
  | nil => rfl
  | cons t ts ih =>
    obtain ⟨ht, hts⟩ := List.forall_mem_cons.1 h
    have hopen := Parts.closesTag h t (List.mem_cons_self ..)
    rw [List.cons_append, upToClose, hopen, ih hts]
    rfl

/-- Behind the token that closes a tag, no more tokens belong to it. -/
theorem upToClose_append_of_closed (h : tagBehind true ts = false) (ts' : List Token) :
    upToClose (ts ++ ts') = upToClose ts := by
  induction ts with
  | nil => cases h
  | cons t ts ih =>
    rw [List.cons_append, upToClose, upToClose]
    split
    · rfl
    · next hopen =>
      have hbehind : t.kind.tagBehind true = true := by
        generalize t.kind = k at hopen
        cases k <;> first | rfl | exact absurd rfl hopen
      rw [tagBehind, List.foldl_cons, hbehind] at h
      rw [ih h]

/-- Where no tag is open, the rows are finished. -/
theorem tagRows_append {inTag : Bool} (h : tagBehind inTag ts = false) (ts' : List Token) :
    tagRows (ts ++ ts') = tagRows ts ++ tagRows ts' := by
  induction ts generalizing inTag with
  | nil => rfl
  | cons t ts ih =>
    rw [List.cons_append, tagRows, tagRows]
    split
    · next hopens =>
      rw [tagBehind, List.foldl_cons, hopens] at h
      rw [upToClose_append_of_closed h, ih h, List.cons_append]
    · exact ih h

theorem tagRows_of_kind_ne (h : ∀ t ∈ ts, t.kind ≠ .tagOpen) : tagRows ts = [] := by
  induction ts with
  | nil => rfl
  | cons t ts ih =>
    obtain ⟨ht, hts⟩ := List.forall_mem_cons.1 h
    rw [tagRows, if_neg ht, ih hts]

theorem upToClose_prefix (ts : List Token) : upToClose ts <+: ts := by
  induction ts with
  | nil => exact List.prefix_rfl
  | cons t ts ih =>
    rw [upToClose]
    split
    · exact ⟨ts, rfl⟩
    · exact (List.prefix_cons_inj t).2 ih

/-- A row starts with a token that opens a start tag, and is a part of the tokens. -/
theorem exists_of_mem_tagRows (h : row ∈ tagRows ts) :
    ∃ front o parts back, ts = front ++ o :: parts ++ back ∧ row = o :: parts ∧ o.kind = .tagOpen := by
  induction ts with
  | nil => cases h
  | cons t ts ih =>
    have hlater : row ∈ tagRows ts → ∃ front o parts back,
        t :: ts = front ++ o :: parts ++ back ∧ row = o :: parts ∧ o.kind = .tagOpen := by
      intro hmem
      obtain ⟨front, o, parts, back, rfl, hrow⟩ := ih hmem
      exact ⟨t :: front, o, parts, back, rfl, hrow⟩
    rw [tagRows] at h
    split at h
    · next hopens =>
      rcases List.mem_cons.1 h with rfl | hmem
      · obtain ⟨back, hback⟩ := upToClose_prefix ts
        exact ⟨[], t, upToClose ts, back, by simp [hback], rfl, hopens⟩
      · exact hlater hmem
    · exact hlater h

/-- In a tag no start tag starts, and neither where it is closed. -/
theorem kind_ne_of_parts (h : Parts ts)
    (hback : back = [] ∨ ∃ c, back = [c] ∧ c.kind.closesTag = true) :
    ∀ t ∈ ts ++ back, t.kind ≠ .tagOpen := by
  refine List.forall_mem_append.2 ⟨h.kind_ne, fun t ht heq => ?_⟩
  rcases hback with rfl | ⟨c, rfl, hc⟩
  · cases ht
  · rw [List.mem_singleton.1 ht] at heq
    rw [heq] at hc
    cases hc

/-- A tag that is open, with the token that closes it or without. -/
theorem tagRows_cons_parts (ho : o.kind = .tagOpen) (h : Parts ts)
    (hback : back = [] ∨ ∃ c, back = [c] ∧ c.kind.closesTag = true) :
    tagRows (o :: (ts ++ back)) = [o :: (ts ++ back)] := by
  have hnone := kind_ne_of_parts h hback
  have hall : upToClose back = back := by
    rcases hback with rfl | ⟨c, rfl, hc⟩
    · rfl
    · rw [upToClose, if_pos hc]
  rw [tagRows, if_pos ho, tagRows_of_kind_ne hnone, upToClose_append_of_parts h, hall]

/-! ## Attributes -/

/-- The first value in front of the next name. -/
def valueBehind (ts : List Token) : Option Token :=
  (ts.takeWhile fun t => t.kind ≠ .identifier).find? fun t => t.kind = .literal

end Token

/-- The attribute of a name and its value, from the one to the other. -/
def TagAttribute.written (key : Token) (value : Option Token) : TagAttribute where
  key
  value
  extent := match value with
    | some v => key.extent.through v.extent
    | none => key.extent

namespace Token

/-- The attributes that the tokens of a tag write: each name with the value behind it. -/
def attributesOf : List Token → List TagAttribute
  | [] => []
  | t :: ts =>
    if t.kind = .identifier then .written t (valueBehind ts) :: attributesOf ts else attributesOf ts

/-- The attributes have the names as keys, in order. -/
theorem map_key_attributesOf (row : List Token) :
    (attributesOf row).map TagAttribute.key = row.filter fun t => t.kind = .identifier := by
  induction row with
  | nil => rfl
  | cons t row ih =>
    rw [attributesOf]
    split
    · next hk =>
      rw [List.map_cons, ih, List.filter_cons_of_pos (by simpa using hk)]
      rfl
    · next hk => rw [ih, List.filter_cons_of_neg (by simpa using hk)]

/-- What comes behind the next name does not matter. -/
theorem valueBehind_append (hback : ∀ t, back.head? = some t → t.kind = .identifier) :
    valueBehind (front ++ back) = valueBehind front := by
  have hstop : (back.takeWhile fun t => t.kind ≠ .identifier) = [] := by
    cases back with
    | nil => rfl
    | cons t back => exact List.takeWhile_cons_of_neg (by simp [hback t rfl])
  unfold valueBehind
  rw [List.takeWhile_append, hstop, List.append_nil]
  split
  · next hall => rw [(List.takeWhile_prefix _).eq_of_length hall]
  · rfl

theorem attributesOf_append (hback : ∀ t, back.head? = some t → t.kind = .identifier) :
    attributesOf (front ++ back) = attributesOf front ++ attributesOf back := by
  induction front with
  | nil => rfl
  | cons t front ih =>
    rw [List.cons_append, attributesOf, attributesOf, ih, valueBehind_append hback]
    split <;> rfl

/-- Without a name there is no attribute. -/
theorem attributesOf_eq_nil (h : ∀ t ∈ row, t.kind ≠ .identifier) : attributesOf row = [] := by
  induction row with
  | nil => rfl
  | cons t row ih =>
    obtain ⟨ht, hrow⟩ := List.forall_mem_cons.1 h
    rw [attributesOf, if_neg ht, ih hrow]

/-- The last name gets the first value behind it. -/
theorem attributesOf_last (hk : t.kind = .identifier) (h : ∀ t ∈ back, t.kind ≠ .identifier) :
    attributesOf (front ++ t :: back) =
      attributesOf front ++ [.written t (back.find? fun t => t.kind = .literal)] := by
  have hback : ∀ t', (t :: back).head? = some t' → t'.kind = .identifier :=
    fun t' ht' => Option.some.inj ht' ▸ hk
  have hall : (back.takeWhile fun t => t.kind ≠ .identifier) = back :=
    List.takeWhile_eq_self_iff.2 fun t' ht' => by simpa using h t' ht'
  rw [attributesOf_append hback, attributesOf, if_pos hk, attributesOf_eq_nil h, valueBehind, hall]

/-- A name more is an attribute more. -/
theorem attributesOf_concat_name (hk : t.kind = .identifier) :
    attributesOf (row ++ [t]) = attributesOf row ++ [.written t none] :=
  attributesOf_last hk (List.forall_mem_nil _)

theorem valueBehind_concat_other (hv : t.kind ≠ .literal) : valueBehind (row ++ [t]) = valueBehind row := by
  induction row with
  | nil =>
    unfold valueBehind
    by_cases hk : t.kind = .identifier <;> simp [hk, hv]
  | cons x row ih =>
    unfold valueBehind at ih ⊢
    rw [List.cons_append, List.takeWhile_cons, List.takeWhile_cons]
    split
    · rw [List.find?_cons, List.find?_cons, ih]
    · rfl

/-- A token that is neither a name nor a value changes no attribute. -/
theorem attributesOf_concat_other (hk : t.kind ≠ .identifier) (hv : t.kind ≠ .literal) :
    attributesOf (row ++ [t]) = attributesOf row := by
  induction row with
  | nil => exact attributesOf_eq_nil (List.forall_mem_singleton.2 hk)
  | cons x row ih => rw [List.cons_append, attributesOf, attributesOf, ih, valueBehind_concat_other hv]

theorem waitsBehind_map_concat (row : List Token) (t : Token) :
    waitsBehind ((row ++ [t]).map kind) = t.kind.waits (waitsBehind (row.map kind)) := by
  rw [List.map_append]
  exact TokenKind.waitsBehind_concat ..

/-- Where a name waits, it is the last one, and there is no value behind it. -/
theorem exists_name_of_waits (h : waitsBehind (row.map kind) = true) : ∃ front key between,
    row = front ++ key :: between ∧ key.kind = .identifier ∧
      ∀ t ∈ between, t.kind ≠ .identifier ∧ t.kind ≠ .literal := by
  induction row using List.reverseRecOn with
  | nil => cases h
  | append_singleton row t ih =>
    rw [waitsBehind_map_concat] at h
    by_cases hk : t.kind = .identifier
    · exact ⟨row, t, [], rfl, hk, List.forall_mem_nil _⟩
    · have hgoes : t.kind ≠ .literal ∧ waitsBehind (row.map kind) = true := by
        generalize t.kind = k at h hk
        cases k <;> first | exact absurd rfl hk | exact ⟨by decide, h⟩ | cases h
      obtain ⟨front, key, between, rfl, hkey, hbetween⟩ := ih hgoes.2
      refine ⟨front, key, between ++ [t], by simp, hkey, List.forall_mem_append.2 ⟨hbetween, ?_⟩⟩
      exact List.forall_mem_singleton.2 ⟨hk, hgoes.1⟩

/-- A value where a name waits is that of the last attribute. -/
theorem attributesOf_concat_value (h : waitsBehind (row.map kind) = true) (hv : t.kind = .literal) :
    ∃ xs key, attributesOf row = xs ++ [.written key none] ∧
      attributesOf (row ++ [t]) = xs ++ [.written key (some t)] := by
  obtain ⟨front, key, between, rfl, hkey, hbetween⟩ := exists_name_of_waits h
  have hnames : ∀ t' ∈ between, t'.kind ≠ .identifier := fun t' ht' => (hbetween t' ht').1
  have hnone : between.find? (fun t => t.kind = .literal) = none :=
    List.find?_eq_none.2 fun t' ht' => by simpa using (hbetween t' ht').2
  refine ⟨attributesOf front, key, ?_, ?_⟩
  · rw [attributesOf_last hkey hnames, hnone]
  · have hbehind : ∀ t' ∈ between ++ [t], t'.kind ≠ .identifier :=
      List.forall_mem_append.2 ⟨hnames, List.forall_mem_singleton.2 (by simp [hv])⟩
    rw [List.append_assoc, List.cons_append, attributesOf_last hkey hbehind, List.find?_append, hnone,
      List.find?_singleton, if_pos (by simpa using hv)]
    rfl

/-- Where each value stands behind a name that waits for it, the values are those of the attributes. -/
theorem filterMap_value_attributesOf (h : ValuesNamed (row.map kind)) :
    (attributesOf row).filterMap TagAttribute.value = row.filter fun t => t.kind = .literal := by
  induction row using List.reverseRecOn with
  | nil => rfl
  | append_singleton row t ih =>
    rw [List.map_append] at h
    have hrow := ih h.front
    by_cases hk : t.kind = .identifier
    · rw [attributesOf_concat_name hk, List.filterMap_append, hrow, List.filter_append]
      simp [hk, TagAttribute.written]
    · by_cases hv : t.kind = .literal
      · obtain ⟨xs, key, heq, heq'⟩ := attributesOf_concat_value (h (row.map kind) [] (by simp [hv])) hv
        rw [heq, List.filterMap_append] at hrow
        rw [heq', List.filterMap_append, List.filter_append, ← hrow]
        simp [hv, TagAttribute.written]
      · rw [attributesOf_concat_other hk hv, hrow, List.filter_append]
        simp [hv]

end Token

/-- Where no value occurs twice, each of them stands at one place. -/
theorem existsUnique_getElem?_of_nodup {α β : Type} {f : α → Option β} {xs : List α} {v : β}
    (hd : (xs.filterMap f).Nodup) (hv : v ∈ xs.filterMap f) :
    ∃! i : Nat, ∃ x, xs[i]? = some x ∧ f x = some v := by
  induction xs with
  | nil => cases hv
  | cons x xs ih =>
    -- the place is the first one, or one of the others is
    by_cases hx : f x = some v
    · rw [List.filterMap_cons_some hx, List.nodup_cons] at hd
      refine ⟨0, ⟨x, rfl, hx⟩, ?_⟩
      rintro (_ | i) ⟨y, hy, hfy⟩
      · rfl
      · have hmem : v ∈ xs.filterMap f := List.mem_filterMap.2 ⟨y, List.mem_of_getElem? hy, hfy⟩
        exact absurd hmem hd.1
    · have hrest : (xs.filterMap f).Nodup ∧ v ∈ xs.filterMap f := by
        cases hw : f x with
        | none =>
          rw [List.filterMap_cons_none hw] at hd hv
          exact ⟨hd, hv⟩
        | some w =>
          rw [List.filterMap_cons_some hw] at hd hv
          have hne : v ≠ w := fun heq => hx (heq ▸ hw)
          exact ⟨(List.nodup_cons.1 hd).2, (List.mem_cons.1 hv).resolve_left hne⟩
      obtain ⟨i, ⟨y, hy, hfy⟩, honly⟩ := ih hrest.1 hrest.2
      refine ⟨i + 1, ⟨y, hy, hfy⟩, ?_⟩
      rintro (_ | j) ⟨z, hz, hfz⟩
      · obtain rfl : x = z := Option.some.inj hz
        exact absurd hfz hx
      · exact congrArg (· + 1) (honly j ⟨z, hz, hfz⟩)

/-! ## Start tags -/

namespace StartTag

variable {tag tag' : StartTag}

/-- The tag is what its tokens write, from the first one to the last one. -/
structure WrittenAs (row : List Token) (tag : StartTag) : Prop where
  opening : ∃ o parts, row = o :: parts ∧ o.kind = .tagOpen ∧ tag.rawName = o.value
  selfClosing : tag.selfClosing = row.any fun t => t.kind = .selfClosingTagClose
  attributes : tag.attributes.toList = Token.attributesOf row
  extent : tag.extent.Spans row

namespace WrittenAs

theorem single (ho : o.kind = .tagOpen) : WrittenAs [o] ⟨o.value, false, #[], o.extent⟩ where
  opening := ⟨o, [], rfl, ho, rfl⟩
  selfClosing := by simp [ho]
  attributes := (Token.attributesOf_eq_nil (List.forall_mem_singleton.2 (by simp [ho]))).symm
  extent := .single o

/-- The tag goes on with one more token. -/
theorem concat (h : tag.WrittenAs row) (hname : tag'.rawName = tag.rawName)
    (hself : tag'.selfClosing = (tag.selfClosing || decide (t.kind = .selfClosingTagClose)))
    (hattributes : tag'.attributes.toList = Token.attributesOf (row ++ [t]))
    (hextent : tag'.extent = tag.extent.through t.extent) : tag'.WrittenAs (row ++ [t]) where
  opening := by
    obtain ⟨o, parts, rfl, ho, hvalue⟩ := h.opening
    exact ⟨o, parts ++ [t], rfl, ho, hname.trans hvalue⟩
  selfClosing := by
    rw [hself, h.selfClosing, List.any_append]
    simp
  attributes := hattributes
  extent := hextent ▸ h.extent.append rfl

/-- A token that is no name and no value adds to the extent, and closes the tag at most. -/
theorem concat_other (h : tag.WrittenAs row) (hk : t.kind ≠ .identifier) (hv : t.kind ≠ .literal)
    {selfClosing : Bool}
    (hself : selfClosing = (tag.selfClosing || decide (t.kind = .selfClosingTagClose))) :
    WrittenAs (row ++ [t]) { tag with selfClosing, extent := tag.extent.through t.extent } :=
  h.concat rfl hself (by rw [Token.attributesOf_concat_other hk hv]; exact h.attributes) rfl

/-- A name is a new attribute. -/
theorem concat_name (h : tag.WrittenAs row) (hk : t.kind = .identifier) :
    WrittenAs (row ++ [t]) { tag with
      attributes := tag.attributes.push ⟨t, none, t.extent⟩
      extent := tag.extent.through t.extent } := by
  refine h.concat rfl (by simp [hk]) ?_ rfl
  rw [Token.attributesOf_concat_name hk, Array.toList_push, h.attributes]
  rfl

/-- A value is that of the last attribute, whose name waits for it. -/
theorem concat_value (h : tag.WrittenAs row) (hw : waitsBehind (row.map Token.kind) = true)
    (hv : t.kind = .literal) :
    WrittenAs (row ++ [t]) { tag with
      attributes := Assembler.giveValue tag.attributes t
      extent := tag.extent.through t.extent } := by
  refine h.concat rfl (by simp [hv]) ?_ rfl
  obtain ⟨xs, key, heq, heq'⟩ := Token.attributesOf_concat_value hw hv
  have hpush : tag.attributes = xs.toArray.push (.written key none) := by
    rw [← Array.toList_inj, h.attributes, heq, Array.toList_push]
  rw [heq', hpush, Assembler.giveValue_push, Array.toList_push]
  rfl

end WrittenAs

/-- Nothing that the tokens of the tag write is lost: its attributes have the names as keys, in order, and
each value is that of one attribute. -/
structure KeepsAll (row : List Token) (tag : StartTag) : Prop extends WrittenAs row tag where
  keys : tag.attributes.toList.map TagAttribute.key = row.filter fun t => t.kind = .identifier
  values : ∀ v ∈ row, v.kind = .literal →
    ∃! i : Nat, ∃ x, tag.attributes[i]? = some x ∧ x.value = some v

theorem WrittenAs.keepsAll (h : tag.WrittenAs row) (hd : row.Nodup)
    (hv : ValuesNamed (row.map Token.kind)) : tag.KeepsAll row where
  toWrittenAs := h
  keys := by rw [h.attributes, Token.map_key_attributesOf]
  values := by
    intro v hmem hk
    have hvalues := Token.filterMap_value_attributesOf hv
    rw [← h.attributes] at hvalues
    have hunique := existsUnique_getElem?_of_nodup (hvalues ▸ hd.filter _)
      (hvalues ▸ List.mem_filter.2 ⟨hmem, by simpa using hk⟩)
    simpa only [Array.getElem?_toList] using hunique

end StartTag

/-- The tags are what the rows of the tokens write, and no two rows have a token in common. -/
structure TagsOf (ts : List Token) (tags : List StartTag) : Prop where
  written : List.Forall₂ StartTag.WrittenAs (Token.tagRows ts) tags
  apart : (Token.tagRows ts).flatten.Sublist ts

namespace TagsOf

variable {tags tags' : List StartTag} {tag : StartTag}

/-- Tokens without the start of a tag. -/
theorem none (h : ∀ t ∈ ts, t.kind ≠ .tagOpen) : TagsOf ts [] := by
  constructor
  · rw [Token.tagRows_of_kind_ne h]
    exact .nil
  · rw [Token.tagRows_of_kind_ne h]
    exact ts.nil_sublist

theorem append (h : TagsOf ts tags) {inTag : Bool} (hclosed : Token.tagBehind inTag ts = false)
    (h' : TagsOf ts' tags') : TagsOf (ts ++ ts') (tags ++ tags') := by
  constructor
  · rw [Token.tagRows_append hclosed]
    exact List.rel_append h.written h'.written
  · rw [Token.tagRows_append hclosed, List.flatten_append]
    exact h.apart.append h'.apart

/-- The tokens of one tag, with the token that closes it or without. -/
theorem single (ho : o.kind = .tagOpen) (hts : Token.Parts ts)
    (hback : back = [] ∨ ∃ c, back = [c] ∧ c.kind.closesTag = true)
    (h : tag.WrittenAs (o :: (ts ++ back))) : TagsOf (o :: (ts ++ back)) [tag] := by
  constructor
  · rw [Token.tagRows_cons_parts ho hts hback]
    exact .cons h .nil
  · rw [Token.tagRows_cons_parts ho hts hback, List.flatten_singleton]

theorem keepsAll (h : TagsOf ts tags) (hd : ts.Nodup) (hv : ValuesNamed (ts.map Token.kind)) :
    List.Forall₂ StartTag.KeepsAll (Token.tagRows ts) tags := by
  have hrows : ∀ row ∈ Token.tagRows ts, row.Nodup ∧ ValuesNamed (row.map Token.kind) := by
    intro row hrow
    obtain ⟨front, o, parts, back, rfl, rfl, ho⟩ := Token.exists_of_mem_tagRows hrow
    have hsub : (o :: parts).Sublist (front ++ o :: parts ++ back) :=
      (List.sublist_append_right front _).trans (List.sublist_append_left _ back)
    refine ⟨hd.sublist hsub, ?_⟩
    rw [List.map_append, List.map_append, List.map_cons] at hv
    rw [List.map_cons]
    exact hv.front.back (by simp [ho, TokenKind.waits]) (by simp [ho])
  have hboth := (List.forall₂_and_left _ _).2 ⟨hrows, h.written⟩
  exact hboth.imp fun row tag hrow => hrow.2.keepsAll hrow.1.1 hrow.1.2

end TagsOf

/-! ## Names that are there already -/

namespace Token

/-- The names that one in front of them has as well, but for upper and lower case. -/
def repeated (names : List Token) : List Token :=
  (names.zipIdx.filter fun p =>
    (names.take p.2).any fun x => Text.sameLetters x.value p.1.value).map Prod.fst

/-- One name more is repeated if one in front has it. -/
theorem repeated_concat (names : List Token) (t : Token) : repeated (names ++ [t]) =
    repeated names ++
      if names.any fun x => Text.sameLetters x.value t.value then [t] else [] := by
  have hfront : names.zipIdx.filter (fun p =>
      ((names ++ [t]).take p.2).any fun x => Text.sameLetters x.value p.1.value) =
        names.zipIdx.filter fun p =>
          (names.take p.2).any fun x => Text.sameLetters x.value p.1.value := by
    refine List.filter_congr fun p hp => ?_
    have hlt := (List.mem_zipIdx hp).2.1
    rw [List.take_append_of_le_length (by omega)]
  unfold repeated
  rw [List.zipIdx_append, List.filter_append, hfront, List.map_append, Nat.zero_add,
    List.zipIdx_singleton, List.filter_cons, List.take_left' rfl]
  split <;> rfl

/-- Names are repeated in the order that they stand in. -/
theorem repeated_sublist (names : List Token) : (repeated names).Sublist names := by
  have h := (List.filter_sublist (l := names.zipIdx) (p := fun p =>
    (names.take p.2).any fun x => Text.sameLetters x.value p.1.value)).map Prod.fst
  rwa [List.zipIdx_map_fst] at h

theorem flatMap_repeated_sublist (rows : List (List Token)) :
    (rows.flatMap repeated).Sublist rows.flatten := by
  induction rows with
  | nil => exact List.Sublist.slnil
  | cons row rows ih =>
    rw [List.flatMap_cons, List.flatten_cons]
    exact (repeated_sublist row).append ih

end Token

end TemplateSyntax
