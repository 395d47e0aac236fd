import TemplateSyntax.Proofs.Locations
import TemplateSyntax.Proofs.SpotsInside

/-! # Keys put together again

The name of a directive is cut into its parts, which stand in it one behind the other.  Where nothing is
wrong with the name, nothing of it is left over: the sign, the argument and the modifiers with their dots
are the name again. -/

namespace TemplateSyntax

open Text (byteLength Between)

/-! ## Parts of names -/

/-- A part of a name between two dots. -/
structure IsSegment (text : List Char) : Prop where
  ne_nil : text ≠ []
  noDot : '.' ∉ text

/-- A text from a bracket to the one that closes it: between the two, more brackets are open than
closed. -/
structure IsBracketed (text : List Char) : Prop where
  opens : text.head? = some '['
  closes : text.getLast? = some ']'
  balanced : text.count '[' = text.count ']'
  inside : ∀ front back, text = front ++ back → front ≠ [] → back ≠ [] →
    front.count ']' < front.count '['

/-- The piece that an argument is written as. -/
def ArgumentPiece.piece : ArgumentPiece → KeyPiece
  | fixed p | dynamic p => p

namespace KeyTail

variable {start depth : Nat} {cs front back : List Char}

/-- The modifiers as they are written. -/
def modifierText (t : KeyTail) : List Char := t.modifiers.flatMap fun p => '.' :: p.text

/-- The argument and the modifiers. -/
def pieces (t : KeyTail) : List KeyPiece := t.argument.toList.map ArgumentPiece.piece ++ t.modifiers

/-- The modifiers are segments behind a place, one behind the other, and without a fault they are the
whole text. -/
structure HasModifiers (t : KeyTail) (start : Nat) (cs : List Char) : Prop where
  behind : ∀ p ∈ t.modifiers, start < p.start
  segments : ∀ p ∈ t.modifiers, IsSegment p.text
  ordered : t.modifiers.Pairwise fun p q => p.stop ≤ q.start
  text : t.faults = [] → t.modifierText = cs

/-- The characters up to the next dot. -/
theorem isSegment_takeWhile (h : (cs.takeWhile isInner).isEmpty = false) :
    IsSegment (cs.takeWhile isInner) where
  ne_nil := by simpa using h
  noDot hmem := by
    have hinner := List.all_eq_true.1 List.all_takeWhile _ hmem
    exact absurd hinner (by decide)

theorem modifiersFrom_hasModifiers (h : ∀ c, cs.head? = some c → c = '.') :
    (modifiersFrom start cs).HasModifiers start cs := by
  fun_induction modifiersFrom start cs with
  | case1 => exact ⟨List.forall_mem_nil _, List.forall_mem_nil _, .nil, fun _ => rfl⟩
  | case2 start c cs text more more' hempty ih =>
    obtain ⟨hbehind, hsegments, hordered, -⟩ := ih fun d hd => head?_dropWhile_isInner hd
    refine ⟨fun p hp => ?_, hsegments, hordered, fun hfaults => absurd hfaults (List.cons_ne_nil _ _)⟩
    have hlt := hbehind p hp
    omega
  | case3 start c cs text more more' hempty ih =>
    obtain rfl : c = '.' := h c rfl
    obtain ⟨hbehind, hsegments, hordered, htext⟩ := ih fun d hd => head?_dropWhile_isInner hd
    have hsegment : IsSegment text := isSegment_takeWhile (eq_false_of_ne_true hempty)
    refine ⟨fun p hp => ?_, List.forall_mem_cons.2 ⟨hsegment, hsegments⟩,
      List.pairwise_cons.2 ⟨fun p hp => Nat.le_of_lt (hbehind p hp), hordered⟩, fun hfaults => ?_⟩
    · rcases List.mem_cons.1 hp with rfl | hp
      · exact Nat.lt_succ_self start
      · have hlt := hbehind p hp
        omega
    · have hmore : more.modifierText = cs.dropWhile isInner := htext hfaults
      change ('.' :: text) ++ more.modifierText = '.' :: cs
      rw [hmore, List.cons_append, List.takeWhile_append_dropWhile]

/-! ### Arguments -/

/-- What a character does to the count of open brackets. -/
theorem depthAfter_count {c : Char} (hdepth : 0 < depth) :
    depthAfter depth c + [c].count ']' = depth + [c].count '[' := by
  unfold depthAfter
  by_cases hopen : c = '['
  · subst hopen
    rfl
  · by_cases hclose : c = ']'
    · subst hclose
      exact Nat.sub_add_cancel hdepth
    · simp [hopen, hclose]

/-- Where the search does not stop, brackets are still open. -/
theorem depthAfter_pos {c : Char} (hdepth : 0 < depth)
    (h : ¬ (c == ']' && depthAfter depth c == 0) = true) : 0 < depthAfter depth c := by
  refine Nat.pos_of_ne_zero fun hzero => h ?_
  have hcount := depthAfter_count (c := c) hdepth
  rw [hzero, Nat.zero_add] at hcount
  have hclose : 0 < [c].count ']' := by omega
  have hc : ']' = c := List.mem_singleton.1 (List.count_pos_iff.1 hclose)
  rw [hzero, ← hc]
  rfl

/-- With brackets open, the search stops where as many are closed, and not before. -/
theorem splitBrackets?_counts (h : splitBrackets? depth cs = some (front, back)) (hdepth : 0 < depth) :
    front.count ']' = front.count '[' + depth ∧
      ∀ as bs, front = as ++ bs → bs ≠ [] → as.count ']' < as.count '[' + depth := by
  fun_induction splitBrackets? depth cs generalizing front back with
  | case1 => cases h
  | case2 depth c cs hc =>
    obtain ⟨rfl, -⟩ := Prod.mk.inj (Option.some.inj h)
    simp only [Bool.and_eq_true, beq_iff_eq] at hc
    obtain ⟨rfl, hafter⟩ := hc
    have hcount := depthAfter_count (c := ']') hdepth
    rw [hafter, Nat.zero_add] at hcount
    refine ⟨by omega, fun as bs hcut hbs => ?_⟩
    cases as with
    | nil => exact Nat.lt_add_left _ hdepth
    | cons d as => exact absurd (List.append_eq_nil_iff.1 (List.cons.inj hcut).2.symm).2 hbs
  | case3 depth c cs hc ih =>
    obtain ⟨⟨f, b⟩, hfb, heq⟩ := Option.map_eq_some_iff.1 h
    obtain ⟨rfl, rfl⟩ := Prod.mk.inj heq
    have hcount := depthAfter_count (c := c) hdepth
    obtain ⟨hall, hprefix⟩ := ih hfb (depthAfter_pos hdepth hc)
    have hcons : ∀ (x : Char) (as : List Char), (c :: as).count x = [c].count x + as.count x :=
      fun x as => by rw [← List.count_append, List.singleton_append]
    refine ⟨?_, fun as bs hcut hbs => ?_⟩
    · rw [hcons ']' f, hcons '[' f]
      omega
    · cases as with
      | nil => exact Nat.lt_add_left _ hdepth
      | cons d as =>
        obtain ⟨rfl, hrest⟩ := List.cons.inj hcut
        have hlt := hprefix as bs hrest hbs
        rw [hcons ']' as, hcons '[' as]
        omega

/-- The search stops at the bracket that closes the first one. -/
theorem splitBrackets?_isBracketed (h : splitBrackets? 0 ('[' :: cs) = some (front, back)) :
    IsBracketed front := by
  have hlast := (splitBrackets?_eq_some h).2
  unfold splitBrackets? at h
  rw [if_neg (by decide)] at h
  obtain ⟨⟨f, b⟩, hfb, heq⟩ := Option.map_eq_some_iff.1 h
  obtain ⟨rfl, rfl⟩ := Prod.mk.inj heq
  obtain ⟨hall, hprefix⟩ := splitBrackets?_counts hfb Nat.one_pos
  have hopen : ∀ as : List Char, ('[' :: as).count ']' = as.count ']' ∧
      ('[' :: as).count '[' = as.count '[' + 1 := fun as => by simp
  refine ⟨rfl, hlast, ?_, fun as bs hcut has hbs => ?_⟩
  · rw [(hopen f).1, (hopen f).2]
    exact hall.symm
  · obtain ⟨d, as, rfl⟩ := List.exists_cons_of_ne_nil has
    obtain ⟨rfl, hrest⟩ := List.cons.inj hcut
    rw [(hopen as).1, (hopen as).2]
    exact hprefix as bs hrest hbs

theorem StandsIn.pieces {t : KeyTail} {name : List Char} (h : t.StandsIn name) :
    ∀ p ∈ t.pieces, p.StandsIn name := by
  intro p hp
  rcases List.mem_append.1 hp with hp | hp
  · obtain ⟨a, ha, rfl⟩ := List.mem_map.1 hp
    cases a with
    | fixed p => exact h.fixed p (Option.mem_toList.1 ha)
    | dynamic p => exact h.dynamic p (Option.mem_toList.1 ha)
  · exact h.modifiers p hp

/-- An argument is a segment or in brackets. -/
def ArgumentWritten : ArgumentPiece → Prop
  | .fixed p => IsSegment p.text
  | .dynamic p => IsBracketed p.text

/-- The argument as it is written. -/
def argumentText (t : KeyTail) : List Char := t.argument.toList.flatMap fun a => a.piece.text

/-- The argument and the modifiers are one behind the other, and without a fault they are the whole
text. -/
structure IsWritten (t : KeyTail) (cs : List Char) : Prop where
  argument : ∀ a ∈ t.argument, ArgumentWritten a
  segments : ∀ p ∈ t.modifiers, IsSegment p.text
  ordered : t.pieces.Pairwise fun p q => p.stop ≤ q.start
  text : t.faults = [] → t.argumentText ++ t.modifierText = cs

theorem HasModifiers.isWritten {t : KeyTail} (h : t.HasModifiers start cs) (ht : t.argument = none) :
    t.IsWritten cs where
  argument := by simp [ht]
  segments := h.segments
  ordered := by
    rw [pieces, ht]
    exact h.ordered
  text hfaults := by
    rw [argumentText, ht]
    exact h.text hfaults

/-- An argument in front of modifiers. -/
theorem HasModifiers.withArgument {t t' : KeyTail} {a : ArgumentPiece} {stop : Nat} {rest : List Char}
    (h : t.HasModifiers stop rest) (ha : ArgumentWritten a) (hstop : a.piece.stop ≤ stop)
    (hargument : t'.argument = some a) (hmodifiers : t'.modifiers = t.modifiers)
    (hfaults : t'.faults = [] → t.faults = [] ∧ cs = a.piece.text ++ rest) : t'.IsWritten cs where
  argument b hb := by
    rw [hargument] at hb
    exact Option.some.inj hb ▸ ha
  segments := hmodifiers ▸ h.segments
  ordered := by
    rw [pieces, hargument, hmodifiers]
    exact List.pairwise_cons.2
      ⟨fun p hp => Nat.le_trans hstop (Nat.le_of_lt (h.behind p hp)), h.ordered⟩
  text hnone := by
    obtain ⟨hnone, rfl⟩ := hfaults hnone
    have hrest : t.modifierText = rest := h.text hnone
    rw [argumentText, hargument, modifierText, hmodifiers, ← hrest]
    simp [modifierText]

theorem ofArgument_isWritten (start : Nat) (cs : List Char) : (ofArgument start cs).IsWritten cs := by
  have hmodifiers (start : Nat) (rest : List Char) :
      (modifiersFrom start (rest.dropWhile isInner)).HasModifiers start (rest.dropWhile isInner) :=
    modifiersFrom_hasModifiers fun c hc => head?_dropWhile_isInner hc
  have hnone (rest : List Char) (h : (rest.takeWhile isInner).isEmpty = true) :
      rest.dropWhile isInner = rest := by
    have hcut := List.takeWhile_append_dropWhile (p := isInner) (l := rest)
    rwa [List.isEmpty_iff.1 h, List.nil_append] at hcut
  unfold ofArgument
  split
  · next hopen =>
    obtain ⟨inner, rfl⟩ := List.head?_eq_some_iff.1 (by simpa using hopen)
    dsimp only
    split
    · exact ⟨fun a ha => absurd ha (Option.not_mem_none a), List.forall_mem_nil _, .nil,
        fun hfaults => absurd hfaults (List.cons_ne_nil _ _)⟩
    · next text rest hsplit =>
      refine (hmodifiers _ rest).withArgument (a := .dynamic ⟨start, text⟩)
        (splitBrackets?_isBracketed hsplit) (Nat.le_add_right _ _) rfl rfl fun hfaults => ?_
      dsimp only at hfaults
      split at hfaults
      · next hjunk =>
        rw [hnone rest hjunk] at hfaults ⊢
        exact ⟨hfaults, (splitBrackets?_eq_some hsplit).1⟩
      · cases hfaults
  · dsimp only
    split
    · next hempty =>
      have hwritten := (hmodifiers (KeyPiece.stop ⟨start, cs.takeWhile isInner⟩) cs).isWritten
        (modifiersFrom_argument _ _)
      rwa [hnone cs hempty] at hwritten ⊢
    · next hne =>
      refine (hmodifiers _ cs).withArgument (a := .fixed ⟨start, cs.takeWhile isInner⟩)
        (isSegment_takeWhile (eq_false_of_ne_true hne)) (Nat.le_refl _) rfl rfl fun hfaults => ?_
      exact ⟨hfaults, List.takeWhile_append_dropWhile.symm⟩

end KeyTail

namespace KeyParts

/-- What stands in front of the argument and the modifiers: a sign, or `v-` and the name, behind which
there may be a colon, or the whole name of two directives. -/
inductive Lead (name written : List Char) : List Char → Prop
  | sign {c : Char} (hc : c ∈ [':', '.', '@', '#']) (hwritten : written = [c]) : Lead name written [c]
  | long : Lead name written ('v' :: '-' :: written)
  | colon : Lead name written ('v' :: '-' :: (written ++ [':']))
  | whole (h : name = "slot-scope".toList ∨ name = "scope".toList) (hwritten : written = name) :
    Lead name written name

/-- The names of directives are those with a sign or `v-` in front, and two others. -/
theorem isDirectiveName_cases {rawName element : String} (h : isDirectiveName rawName element = true) :
    (∃ rest, rawName.toList = 'v' :: '-' :: rest) ∨
      (∃ c rest, rawName.toList = c :: rest ∧ c ∈ [':', '.', '@', '#']) ∨
      rawName = "slot-scope" ∨ (element = "template" ∧ rawName = "scope") := by
  unfold isDirectiveName at h
  dsimp only at h
  rw [Bool.or_eq_true, Bool.or_eq_true, Bool.and_eq_true, beq_iff_eq, beq_iff_eq, beq_iff_eq] at h
  rcases h with (h | h) | h
  · split at h
    · cases h
    · next hrest =>
      split at hrest
      · exact .inl ⟨_, by assumption⟩
      · next c rest _ hname =>
        refine .inr (.inl ⟨c, rest, hname, ?_⟩)
        split at hrest
        · next hsign =>
          simp only [Bool.or_eq_true, beq_iff_eq] at hsign
          rcases hsign with ((rfl | rfl) | rfl) | rfl <;> decide
        · cases hrest
      · cases hrest
  · exact .inr (.inr (.inl h))
  · exact .inr (.inr (.inr h))

theorem ofLongName_isWritten (cs : List Char) : ∃ lead rest, 'v' :: '-' :: cs = lead ++ rest ∧
    Lead ('v' :: '-' :: cs) (ofLongName cs).written.text lead ∧ (ofLongName cs).tail.IsWritten rest := by
  have hcut := List.takeWhile_append_dropWhile (p := isNamePart) (l := cs)
  unfold ofLongName
  dsimp only
  split
  · next rest hrest =>
    refine ⟨_, rest, ?_, .colon, KeyTail.ofArgument_isWritten _ _⟩
    rw [hrest] at hcut
    simp [hcut]
  · next hcolon =>
    refine ⟨_, cs.dropWhile isNamePart, by simp [hcut], .long, ?_⟩
    refine (KeyTail.modifiersFrom_hasModifiers fun c hc => ?_).isWritten
      (KeyTail.modifiersFrom_argument _ _)
    rcases head?_dropWhile_isNamePart hc with rfl | rfl
    · obtain ⟨rest, hrest⟩ := List.head?_eq_some_iff.1 hc
      exact absurd hrest (hcolon rest)
    · rfl

/-- The parts of the name of a directive are written behind its lead. -/
theorem ofName_isWritten {rawName element : String} (h : isDirectiveName rawName element = true) :
    ∃ lead rest, rawName.toList = lead ++ rest ∧
      Lead rawName.toList (ofName rawName.toList).written.text lead ∧
      (ofName rawName.toList).tail.IsWritten rest ∧
      ((ofName rawName.toList).impliesProp = true ↔ rawName.toList.head? = some '.') := by
  have hnothing : ({} : KeyTail).IsWritten [] :=
    ⟨fun a ha => absurd ha (Option.not_mem_none a), List.forall_mem_nil _, .nil, fun _ => rfl⟩
  rcases isDirectiveName_cases h with ⟨rest, hname⟩ | ⟨c, rest, hname, hc⟩ | rfl | ⟨-, rfl⟩
  · rw [hname]
    obtain ⟨lead, behind, hcut, hlead, htail⟩ := ofLongName_isWritten rest
    refine ⟨lead, behind, hcut, hlead, htail, ?_⟩
    simp [ofName, ofLongName]
  · rw [hname]
    refine ⟨[c], rest, rfl, ?_⟩
    have hwritten := KeyTail.ofArgument_isWritten 1 rest
    simp only [List.mem_cons, List.not_mem_nil, or_false] at hc
    rcases hc with rfl | rfl | rfl | rfl
    all_goals exact ⟨.sign (by decide) rfl, hwritten, by simp [ofName, ofSign?]⟩
  · exact ⟨_, [], (List.append_nil _).symm, .whole (.inl rfl) (by decide), hnothing, by decide⟩
  · exact ⟨_, [], (List.append_nil _).symm, .whole (.inr rfl) (by decide), hnothing, by decide⟩

end KeyParts

/-! ## Keys -/

/-- A text stands in the name of an identifier, where a span says. -/
def Identifier.Has (id : Identifier) (s : Span) (text : List Char) : Prop :=
  ∃ lo hi, s = ⟨id.extent.span.start + lo, id.extent.span.start + hi⟩ ∧
    Between id.rawName.toList lo text hi

namespace DirectiveKey

/-- An argument is written as a text in the name, a dynamic one with its brackets. -/
inductive ArgumentIs (id : Identifier) : Option DirectiveArgument → List Char → Prop
  | none : ArgumentIs id none []
  | fixed {x : Identifier} (hin : id.Has x.extent.span x.rawName.toList)
    (h : IsSegment x.rawName.toList) : ArgumentIs id (some (.fixed x)) x.rawName.toList
  | dynamic {c : Container} {text : List Char} (hin : id.Has c.extent.span text)
    (h : IsBracketed text) : ArgumentIs id (some (.dynamic c)) text

/-- The places of an argument and modifiers. -/
def partExtents (k : DirectiveKey) (modifiers : List Identifier) : List Extent :=
  k.argument.toList.map DirectiveArgument.extent ++ modifiers.map Identifier.extent

/-- The parts of a key are written one behind the other in a name, with these modifiers behind dots. -/
structure WrittenIn (k : DirectiveKey) (id : Identifier) (argument : List Char)
    (modifiers : List Identifier) : Prop where
  argument : ArgumentIs id k.argument argument
  /-- The dot in front of a name is a modifier too, which is not written by itself. -/
  implied : (id.rawName.toList.head? ≠ some '.' ∧ k.modifiers = modifiers) ∨
    (id.rawName.toList.head? = some '.' ∧
      ∃ x, k.modifiers = x :: modifiers ∧ x.name = "prop" ∧ x.rawName = ".")
  segments : ∀ x ∈ modifiers, id.Has x.extent.span x.rawName.toList ∧ IsSegment x.rawName.toList
  ordered : (k.partExtents modifiers).Pairwise fun x y => x.span.stop ≤ y.span.start
  inside : ∀ x ∈ k.partExtents modifiers,
    k.extent.span.start ≤ x.span.start ∧ x.span.stop ≤ k.extent.span.stop

end DirectiveKey

namespace Reading

variable (r : Reading) {id : Identifier} {base : Nat}

theorem argument_extent (a : ArgumentPiece) :
    (r.argument base a).1.extent = r.pieceExtent base a.piece := by
  cases a with
  | fixed p => rfl
  | dynamic p =>
    simp only [argument, dynamicArgument, DirectiveArgument.extent]
    generalize Fragment.readExpression _ _ = result
    cases result <;> rfl

theorem has_piece {p : KeyPiece} (h : p.StandsIn id.rawName.toList) :
    id.Has (r.pieceExtent id.extent.span.start p).span p.text :=
  ⟨_, _, rfl, h⟩

theorem identifier_rawName (p : KeyPiece) : (r.identifier base p).rawName.toList = p.text :=
  String.toList_ofList

/-- The places of a key are those of its pieces. -/
theorem key_extents : (r.key id).1.partExtents
      ((KeyParts.ofName id.rawName.toList).tail.modifiers.map (r.identifier id.extent.span.start)) =
    (KeyParts.ofName id.rawName.toList).tail.pieces.map (r.pieceExtent id.extent.span.start) := by
  rw [DirectiveKey.partExtents, KeyTail.pieces, List.map_append, List.map_map, List.map_map]
  refine congrArg₂ _ ?_ rfl
  simp only [key]
  cases (KeyParts.ofName id.rawName.toList).tail.argument with
  | none => rfl
  | some a => exact congrArg (fun x => [x]) (r.argument_extent a)

theorem key_argumentIs (h : ∀ a ∈ (KeyParts.ofName id.rawName.toList).tail.argument,
    KeyTail.ArgumentWritten a) : DirectiveKey.ArgumentIs id (r.key id).1.argument
      (KeyParts.ofName id.rawName.toList).tail.argumentText := by
  have hstands := (KeyParts.ofName_standsIn id.rawName.toList).2
  simp only [key]
  rw [KeyTail.argumentText]
  cases hargument : (KeyParts.ofName id.rawName.toList).tail.argument with
  | none => exact .none
  | some a =>
    have ha := h a hargument
    cases a with
    | fixed p =>
      have hin : id.Has (r.identifier id.extent.span.start p).extent.span
          (r.identifier id.extent.span.start p).rawName.toList := by
        rw [r.identifier_rawName]
        exact r.has_piece (hstands.fixed p hargument)
      have hfixed := DirectiveKey.ArgumentIs.fixed hin (by rwa [r.identifier_rawName])
      rw [r.identifier_rawName] at hfixed
      simpa [argument, ArgumentPiece.piece] using hfixed
    | dynamic p =>
      have hin : id.Has (r.dynamicArgument id.extent.span.start p).container.extent.span p.text := by
        rw [show (r.dynamicArgument id.extent.span.start p).container.extent = _ from
          r.argument_extent (.dynamic p)]
        exact r.has_piece (hstands.dynamic p hargument)
      simpa [argument, ArgumentPiece.piece] using DirectiveKey.ArgumentIs.dynamic hin ha

/-- Without a fault of the key there is none of its parts. -/
theorem faults_eq_nil (h : ∀ offset fault, .keyFault offset fault ∉ (r.key id).2) :
    (KeyParts.ofName id.rawName.toList).tail.faults = [] := by
  refine List.eq_nil_iff_forall_not_mem.2 fun x hx => ?_
  exact h (id.extent.span.start + x.1) x.2
    (List.mem_append_right _ (List.mem_map.2 ⟨x, hx, rfl⟩))

/-- The parts of a key are written in the name of a directive, where its span is long enough. -/
theorem key_isWritten {element : String} (hname : isDirectiveName id.rawName element = true) :
    ∃ argument modifiers,
      (id.extent.span.start + byteLength id.rawName.toList ≤ id.extent.span.stop →
        (r.key id).1.WrittenIn id argument modifiers) ∧
      ((∀ offset fault, .keyFault offset fault ∉ (r.key id).2) →
        ∃ lead, KeyParts.Lead id.rawName.toList (r.key id).1.name.rawName.toList lead ∧
          id.rawName.toList =
            lead ++ argument ++ modifiers.flatMap fun x => '.' :: x.rawName.toList) := by
  obtain ⟨lead, rest, hcut, hlead, hwritten, hprop⟩ := KeyParts.ofName_isWritten hname
  have hstands := (KeyParts.ofName_standsIn id.rawName.toList).2
  refine ⟨_, (KeyParts.ofName id.rawName.toList).tail.modifiers.map
    (r.identifier id.extent.span.start),
    fun hspan => ⟨r.key_argumentIs hwritten.argument, ?_, ?_, ?_, ?_⟩, fun hfaults => ⟨lead, ?_, ?_⟩⟩
  · by_cases hdot : id.rawName.toList.head? = some '.'
    · refine .inr ⟨hdot, r.named id.extent.span.start (KeyParts.ofName id.rawName.toList).written "prop",
        ?_, rfl, ?_⟩
      · simp [key, impliedModifier, hprop.2 hdot]
      · obtain ⟨behind, hbehind⟩ := List.head?_eq_some_iff.1 hdot
        rw [hbehind]
        rfl
    · refine .inl ⟨hdot, ?_⟩
      simp [key, impliedModifier, eq_false_of_ne_true (mt hprop.1 hdot)]
  · intro x hx
    obtain ⟨p, hp, rfl⟩ := List.mem_map.1 hx
    rw [r.identifier_rawName]
    exact ⟨r.has_piece (hstands.modifiers p hp), hwritten.segments p hp⟩
  · rw [r.key_extents, List.pairwise_map]
    exact hwritten.ordered.imp fun hle => Nat.add_le_add_left hle _
  · intro x hx
    rw [r.key_extents] at hx
    obtain ⟨p, hp, rfl⟩ := List.mem_map.1 hx
    have hstop := (hstands.pieces p hp).le_size
    exact ⟨Nat.le_add_right _ _, Nat.le_trans (Nat.add_le_add_left hstop _) hspan⟩
  · rwa [show (r.key id).1.name.rawName.toList = (KeyParts.ofName id.rawName.toList).written.text from
      String.toList_ofList]
  · refine hcut.trans ?_
    rw [← hwritten.text (r.faults_eq_nil hfaults), List.flatMap_map, ← List.append_assoc]
    simp only [r.identifier_rawName]
    rfl

/-- The name of a directive is taken apart into parts that are written in it, and if nothing is wrong with
it, it can be put together from them again. -/
theorem key_writtenIn (id : Identifier) (element : String)
    (hname : isDirectiveName id.rawName element = true)
    (hspan : id.extent.span.start + byteLength id.rawName.toList ≤ id.extent.span.stop) :
    ∃ argument modifiers, (r.key id).1.WrittenIn id argument modifiers ∧
      ((∀ offset fault, .keyFault offset fault ∉ (r.key id).2) →
        ∃ lead, KeyParts.Lead id.rawName.toList (r.key id).1.name.rawName.toList lead ∧
          id.rawName.toList =
            lead ++ argument ++ modifiers.flatMap fun x => '.' :: x.rawName.toList) := by
  obtain ⟨argument, modifiers, hwritten, hwhole⟩ := r.key_isWritten hname
  exact ⟨argument, modifiers, hwritten hspan, hwhole⟩

/-- A name with a colon, an argument and a modifier, of which one letter has two bytes. -/
theorem key_writtenIn_colon :
    let id : Identifier := ⟨"v-on:x.\u00e9", "v-on:x.\u00e9", ⟨⟨3, 12⟩, ⟨1, 3⟩, ⟨1, 12⟩⟩⟩
    let key := ((Template.readingOf "" {} Script.parse).key id).1
    ∃ argument modifiers lead, key.WrittenIn id argument modifiers ∧
      KeyParts.Lead id.rawName.toList key.name.rawName.toList lead ∧
      id.rawName.toList = lead ++ argument ++ modifiers.flatMap fun x => '.' :: x.rawName.toList := by
  intro id key
  obtain ⟨argument, modifiers, hwritten, hwhole⟩ :=
    (Template.readingOf "" {} Script.parse).key_writtenIn id "p" (by decide) (by decide)
  have hfaults : ((Template.readingOf "" {} Script.parse).key id).2 = [] := by decide +kernel
  obtain ⟨lead, hlead, hname⟩ := hwhole (by simp [hfaults])
  exact ⟨argument, modifiers, lead, hwritten, hlead, hname⟩

end Reading

/-! ## The keys of a template -/

namespace Template

variable {text : String} {o : Options} {id : Nat} {e : Element} {a : PlainAttribute}

/-- The name of an attribute of a template is as long as its place. -/
theorem name_covers (he : (outlineOf text o).tree.element? id = some e)
    (ha : .plain a ∈ e.attributes) :
    a.key.extent.span.start + byteLength a.key.rawName.toList ≤ a.key.extent.span.stop := by
  obtain ⟨i, f, j, hspan, hname, hle, -⟩ := exists_name he ha
  rw [hspan]
  simp only [Locator.host, hname.1] at hle ⊢
  omega

/-- The keys of the directives of a template can be put together again. -/
theorem keys_writtenIn (reader : Script.Reader) (he : (outlineOf text o).tree.element? id = some e)
    (ha : .plain a ∈ e.attributes) (hname : isDirectiveName a.key.rawName e.name = true) :
    ∃ argument modifiers,
      ((readingOf text o reader).key a.key).1.WrittenIn a.key argument modifiers ∧
      ((∀ offset fault, .keyFault offset fault ∉ ((readingOf text o reader).key a.key).2) →
        ∃ lead, KeyParts.Lead a.key.rawName.toList
            ((readingOf text o reader).key a.key).1.name.rawName.toList lead ∧
          a.key.rawName.toList =
            lead ++ argument ++ modifiers.flatMap fun x => '.' :: x.rawName.toList) := by
  obtain ⟨argument, modifiers, hwritten, hwhole⟩ := (readingOf text o reader).key_isWritten hname
  exact ⟨argument, modifiers, hwritten (name_covers he ha), hwhole⟩

end Template

end TemplateSyntax
