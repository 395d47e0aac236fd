import TemplateSyntax.Proofs.EmbeddedInside
import TemplateSyntax.Proofs.FragmentNames
import TemplateSyntax.Proofs.GrammarFaithful
import TemplateSyntax.Proofs.VisitOrder

/-! # The variables of patterns

The aliases of an iteration and the parameters of a scope are patterns.  The names that they bind are the
variables of an element, and the uses of other names in their defaults and computed keys are references
to what is around it.  What an iteration goes over is read on its own, outside of the aliases. -/

namespace TemplateSyntax

open Script
open Text (byteLength Between)

/-! ## Order -/

namespace Fragment

variable {f g : Fragment} {name : String} {s : Span}

/-- Later indices of the text have later offsets. -/
def KeepsOrder (f : Fragment) : Prop :=
  ∀ i j, i < j → j ≤ byteLength f.code → f.map.offset i < f.map.offset j

theorem keepsOrder_atOffset {code : List Char} {gaps : Array Nat} {base : Nat} {lang : Lang}
    {reader : Reader} (hg : gaps.toList.Pairwise (· < ·)) (hfit : byteLength code < Offset.limit) :
    KeepsOrder ⟨code, .atOffset gaps base, lang, reader⟩ := fun _ _ hij hj =>
  OffsetMap.offset_lt hg hij (Nat.lt_of_le_of_lt hj hfit)

namespace KeepsOrder

theorem mono (hf : f.KeepsOrder) {i j : Nat} (hij : i ≤ j) (hj : j ≤ byteLength f.code) :
    f.map.offset i ≤ f.map.offset j := by
  rcases Nat.lt_or_eq_of_le hij with hlt | rfl
  · exact Nat.le_of_lt (hf i j hlt hj)
  · exact Nat.le_refl _

theorem ofPart (hg : g.PartOf f) (hf : f.KeepsOrder) : g.KeepsOrder := by
  obtain ⟨start, hle, hoffset⟩ := hg.offset
  intro i j hij hj
  rw [hoffset, hoffset]
  exact hf _ _ (by omega) (by omega)

theorem host_mono {w : Wrapped} (hf : w.fragment.KeepsOrder) {i j : Nat} (hij : i ≤ j) :
    w.host i ≤ w.host j := by
  have hhi : w.hi = w.lo + byteLength w.fragment.code := rfl
  rw [w.host_eq, w.host_eq]
  exact hf.mono (by omega) (by omega)

/-- A name does not end where it starts. -/
theorem start_lt_stop (hf : f.KeepsOrder) (h : f.Names name s) : s.start < s.stop := by
  obtain ⟨i, j, raw, hlt, rfl, hin, -⟩ := h
  exact hf i j hlt hin.le_size

end KeepsOrder

/-- A name starts at an index of the text that is not its end. -/
theorem Names.start (h : f.Names name s) : ∃ i < byteLength f.code, s.start = f.map.offset i := by
  obtain ⟨i, j, raw, hlt, rfl, hin, -⟩ := h
  exact ⟨i, Nat.lt_of_lt_of_le hlt hin.le_size, rfl⟩

end Fragment

/-- References in the order of the text. -/
def ReferencesInOrder (references : List Reference) : Prop :=
  references.Pairwise fun a b => a.span.start ≤ b.span.start

namespace Script

theorem patReferences_sorted (pats : List Pat) :
    (patReferences pats).Pairwise fun a b => a.id.span.start ≤ b.id.span.start :=
  (declarePats_acts false pats).finish_root_sorted []

theorem references_sorted (e : Expr) :
    e.references.Pairwise fun a b => a.id.span.start ≤ b.id.span.start :=
  e.visit_acts.finish_root_sorted []

theorem references_inOrder {uses : List Use}
    (h : uses.Pairwise fun a b => a.id.span.start ≤ b.id.span.start) :
    ReferencesInOrder (uses.map Use.reference) := h.map _ fun _ _ hle => hle

/-- Uses of which some are in front of all others are put in order by putting these in front. -/
theorem byPlace_append {us vs : List Use} (hus : us.Pairwise fun a b => a.id.span.start ≤ b.id.span.start)
    (hvs : vs.Pairwise fun a b => a.id.span.start ≤ b.id.span.start)
    (hlt : ∀ u ∈ us, ∀ v ∈ vs, u.id.span.start < v.id.span.start) : byPlace (vs ++ us) = us ++ vs := by
  have hsorted : (us ++ vs).Pairwise fun a b => a.id.span.start ≤ b.id.span.start :=
    List.pairwise_append.2 ⟨hus, hvs, fun u hu v hv => Nat.le_of_lt (hlt u hu v hv)⟩
  refine SamePlaces.eq_of_sorted (fun k => ?_) (byPlace_pairwise _) hsorted
  rw [SamePlaces.byPlace (vs ++ us) k, List.filter_append, List.filter_append]
  -- no place is one of uses on both sides
  by_cases h : ∃ u ∈ us, u.id.span.start = k
  · obtain ⟨u, hu, rfl⟩ := h
    have hnone : vs.filter (·.id.span.start == u.id.span.start) = [] :=
      List.filter_eq_nil_iff.2 fun v hv heq => absurd (hlt u hu v hv) (by simp_all)
    rw [hnone, List.nil_append, List.append_nil]
  · have hnone : us.filter (·.id.span.start == k) = [] :=
      List.filter_eq_nil_iff.2 fun u hu heq => h ⟨u, hu, by simpa using heq⟩
    rw [hnone, List.append_nil, List.nil_append]

/-! ## Patterns -/

mutual

@[simp] theorem Pat.isBinding_map (f : Nat → Nat) : ∀ p : Pat, (p.map f).isBinding = p.isBinding
  | .ident _ _ => by rw [Pat.map, Pat.isBinding, Pat.isBinding]
  | .array _ elements => by rw [Pat.map, Pat.isBinding, Pat.isBinding, areBindings_map f elements]
  | .rest _ argument => by rw [Pat.map, Pat.isBinding, Pat.isBinding, Pat.isBinding_map f argument]
  | .object _ properties => by
    rw [Pat.map, Pat.isBinding, Pat.isBinding, areBindingProperties_map f properties]
  | .withDefault _ left _ => by rw [Pat.map, Pat.isBinding, Pat.isBinding, Pat.isBinding_map f left]
  | .expr _ => by rw [Pat.map, Pat.isBinding, Pat.isBinding]
  | .hole => by rw [Pat.map]

theorem areBindings_map (f : Nat → Nat) : ∀ ps : List Pat, areBindings (mapPats f ps) = areBindings ps
  | [] => by rw [mapPats]
  | p :: ps => by rw [mapPats, areBindings, areBindings, Pat.isBinding_map f p, areBindings_map f ps]

theorem PatProperty.isBinding_map (f : Nat → Nat) : ∀ p : PatProperty, (p.map f).isBinding = p.isBinding
  | .keyValue _ value => by
    rw [PatProperty.map, PatProperty.isBinding, PatProperty.isBinding, Pat.isBinding_map f value]
  | .shorthand _ => by rw [PatProperty.map, PatProperty.isBinding, PatProperty.isBinding]
  | .shorthandDefault _ _ => by rw [PatProperty.map, PatProperty.isBinding, PatProperty.isBinding]
  | .rest argument => by
    rw [PatProperty.map, PatProperty.isBinding, PatProperty.isBinding, Pat.isBinding_map f argument]

theorem areBindingProperties_map (f : Nat → Nat) :
    ∀ ps : List PatProperty, areBindingProperties (mapPatProperties f ps) = areBindingProperties ps
  | [] => by rw [mapPatProperties]
  | p :: ps => by
    rw [mapPatProperties, areBindingProperties, areBindingProperties, PatProperty.isBinding_map f p,
      areBindingProperties_map f ps]

end

variable {pats : List Pat}

/-- Holes bind nothing. -/
theorem boundByPats_present (pats : List Pat) :
    boundByPats (pats.filter Fragment.isPresent) = boundByPats pats := by
  induction pats with
  | nil => rfl
  | cons p pats ih =>
    rw [List.filter_cons, boundByPats]
    split
    · rw [boundByPats, ih]
    · next habsent =>
      cases p with
      | hole => rw [ih, Pat.bound, List.nil_append]
      | _ => exact absurd rfl habsent

theorem areBindings_present (h : areBindings pats = true) :
    areBindings (pats.filter Fragment.isPresent) = true := by
  induction pats with
  | nil => exact h
  | cons p pats ih =>
    rw [areBindings, Bool.and_eq_true] at h
    rw [List.filter_cons]
    split
    · rw [areBindings, h.1, ih h.2, Bool.and_self]
    · exact ih h.2

/-- The patterns are made of names, and stand in the host file in the order in which they are listed. -/
structure InRow (pats : List Pat) : Prop where
  areBindings : areBindings pats = true
  start_lt_stop : ∀ id ∈ boundByPats pats, id.span.start < id.span.stop
  inOrder : (boundByPats pats).Pairwise fun a b => a.span.stop ≤ b.span.start

theorem InRow.present (h : InRow pats) : InRow (pats.filter Fragment.isPresent) where
  areBindings := areBindings_present h.areBindings
  start_lt_stop := by
    rw [boundByPats_present]
    exact h.start_lt_stop
  inOrder := by
    rw [boundByPats_present]
    exact h.inOrder

/-- Patterns that stand in a wrapping stand in the host file. -/
theorem StandUpTo.inRow {w : Wrapped} {lo : Nat} {close : Char} (hf : w.fragment.KeepsOrder)
    (h : StandUpTo (w.wrapping.wrap w.fragment.code) pats lo close)
    (hspells : w.fragment.Spells (mapPats w.host pats)) : InRow (mapPats w.host pats) := by
  obtain ⟨k, hstand, -⟩ := h
  refine ⟨(areBindings_map _ pats).trans (areBindings_of_stand hstand), fun id hid => ?_, ?_⟩
  · exact hf.start_lt_stop (boundByPats_all _ (patsAll_iff.2 hspells) id hid)
  · rw [boundByPats_map]
    exact (List.pairwise_map.1 (patsStand_inOrder hstand).pairwise).map _ fun _ _ hle => hf.host_mono hle

/-- What comes of patterns.  The variables are the identifiers that the patterns bind, each once and one
behind the other.  Each reference is one of a default or of a computed key, is not an identifier that the
patterns bind, and has not the name of a variable. -/
structure Declare (kind : VariableKind) (pats : List Pat) (references : List Reference)
    (bindings : List Variable) : Prop where
  bound : ∃ ids : List Ident,
    bindings = ids.map (fun id => ⟨id.name, id.span, kind, #[]⟩) ∧
    (∀ id, id ∈ ids ↔ ∃ p ∈ pats, p.Binds id) ∧ (∀ id ∈ ids, id.span.start < id.span.stop) ∧
    ids.Pairwise fun a b => a.span.stop ≤ b.span.start
  inOrder : bindings.Pairwise fun a b => a.span.stop ≤ b.span.start
  sources : ∀ r ∈ references, ∃ u : Use, r = u.reference ∧
    (∃ p ∈ pats, ∃ e, p.Holds e ∧ e.Mentions u.id ∧ u ∈ e.references) ∧ ∀ p ∈ pats, ¬ p.Binds u.id
  apart : ∀ r ∈ references, ∀ v ∈ bindings, r.name ≠ v.name

theorem InRow.declare (h : InRow pats) (kind : VariableKind) :
    Declare kind pats ((patReferences pats).map Use.reference) (declaredVariables kind pats) := by
  refine ⟨⟨boundByPats pats, rfl, mem_boundByPats_iff pats, h.start_lt_stop, h.inOrder⟩,
    h.inOrder.map _ fun _ _ hle => hle, fun r hr => ?_, fun r hr v hv => ?_⟩
  · obtain ⟨u, hu, rfl⟩ := List.mem_map.1 hr
    obtain ⟨⟨p, hp, e, he, hue⟩, hapart⟩ := mem_patReferences h.areBindings hu
    exact ⟨u, rfl, ⟨p, hp, e, he, Expr.mentions_of_mem_references hue, hue⟩,
      fun q hq hbinds => hapart q hq u.id hbinds rfl⟩
  · obtain ⟨u, hu, rfl⟩ := List.mem_map.1 hr
    obtain ⟨id, hid, rfl⟩ := List.mem_map.1 hv
    obtain ⟨p, hp, hbinds⟩ := (mem_boundByPats_iff pats id).1 hid
    exact fun heq => (mem_patReferences h.areBindings hu).2 p hp id hbinds heq.symm

end Script

/-! ## Aliases and parameters -/

namespace Fragment

variable {f : Fragment} {x : Embedded} {pats : List Pat}

/-- The aliases end in front of the separator. -/
theorem aliasPart_stop (f : Fragment) (left : List Char) : ∃ (start : Nat) (code : List Char),
    f.aliasPart left = f.part start code ∧ start + byteLength code ≤ byteLength left := by
  have htrim := (f.part 0 left).between_trim
  unfold aliasPart
  dsimp only
  split
  · next code hinner =>
    refine ⟨_, code, rfl, ?_⟩
    have hle := (htrim.inside (betweenParens?_between hinner)).le_size
    rwa [← Nat.add_assoc] at hle
  · exact ⟨_, _, rfl, htrim.le_size⟩

/-- What was read of an iteration.  The variables and the first of the references are those of the
aliases, and the others are the references of what is gone over, which is read alone. -/
def IterationDeclares (f : Fragment) (x : Embedded) : Prop :=
  ∃ halves pats e references,
    Script.Scan.splitIteration f.code = some halves ∧
    (f.aliasPart halves.left).readAliases = .ok pats ∧
    (f.part halves.right.start halves.right.code).readOne = .ok e ∧
    x.references.toList = references ++ e.references.map Use.reference ∧
    Declare .iteration pats references x.bindings.toList ∧
    ReferencesInOrder x.references.toList

/-- What was read of the parameters of a scope.  The variables and references are those of the
parameters of the function in the wrapping. -/
def ParametersDeclare (f : Fragment) (x : Embedded) : Prop :=
  ∃ body params inner,
    Wrapped.parse ⟨f, .parameters⟩ = .ok body ∧ wrappedFunction? body = some (.mk params inner) ∧
    Declare .scope params x.references.toList x.bindings.toList ∧
    ReferencesInOrder x.references.toList

/-- A name of the aliases starts in front of any name of what is gone over. -/
theorem aliases_lt (hf : f.KeepsOrder) {halves : Script.Scan.Halves}
    (hsplit : Script.Scan.splitIteration f.code = some halves) {a b : String} {s t : Span}
    (ha : (f.aliasPart halves.left).Names a s)
    (hb : (f.part halves.right.start halves.right.code).Names b t) : s.start < t.start := by
  obtain ⟨hleft, hle, hright⟩ := Script.Scan.splitIteration_between hsplit
  obtain ⟨start, code, hpart, hstop⟩ := aliasPart_stop f halves.left
  rw [hpart] at ha
  obtain ⟨i, hi, hs⟩ := ha.start
  obtain ⟨j, hj, ht⟩ := hb.start
  have hshift (start k : Nat) : (f.part start code).map.offset k = f.map.offset (start + k) :=
    OffsetMap.offset_shift _ (by omega)
  have hsize := hright.1
  rw [hs, ht, hshift]
  refine Nat.lt_of_lt_of_eq (hf _ _ ?_ ?_) (hshift halves.right.start j).symm
  · show start + i < halves.right.start + j
    have hi : i < byteLength code := hi
    omega
  · have hj : j < byteLength halves.right.code := hj
    omega

/-- The references of the aliases stand in front of those of what is gone over. -/
theorem iterationReferences_eq {e : Expr} (hlt : ∀ u ∈ patReferences pats, ∀ v ∈ e.references,
    u.id.span.start < v.id.span.start) :
    iterationReferences pats e = (patReferences pats ++ e.references).map Use.reference := by
  rw [← byPlace_append (patReferences_sorted pats) (references_sorted e) hlt]
  have hmap := List.map_mergeSort (f := Use.reference) (l := e.references ++ patReferences pats)
    (r := fun a b => a.id.span.start ≤ b.id.span.start) (s := fun a b => a.span.start ≤ b.span.start)
    fun _ _ _ _ => rfl
  exact hmap.symm

theorem readIteration_declares (hreader : f.reader.Faithful) (hf : f.KeepsOrder)
    (hblank : f.isBlank = false) (hx : f.readIteration = .ok x) : f.IterationDeclares x := by
  obtain ⟨halves, pats, e, hsplit, haliases, he, hreferences, hbindings⟩ := readIteration_ok hblank hx
  have hpart := aliasPart_partOf hsplit
  have hparts : (f.aliasPart halves.left).Spells pats :=
    readAliases_spell (hpart.reader ▸ hreader) (.refl _) haliases
  have hright : (f.part halves.right.start halves.right.code).Spells e :=
    readOne_spells (g := f.part _ _) hreader (.refl _) he
  have hrow : InRow pats := by
    obtain ⟨elements, rfl, hstand⟩ := readAliases_stand (hpart.reader ▸ hreader) haliases
    have hlast : ']' ∉ " of 0);".toList := by decide
    have hspells := pats_spell (w := .aliases) (.refl _) hstand hlast (.inl rfl)
    exact (hstand.inRow (w := ⟨_, .aliases⟩) (hf.ofPart hpart) hspells).present
  have hlt : ∀ u ∈ patReferences pats, ∀ v ∈ e.references, u.id.span.start < v.id.span.start :=
    fun u hu v hv => aliases_lt hf hsplit (patReferences_all (patsAll_iff.2 hparts) u hu)
      (Expr.references_all hright v hv)
  rw [iterationReferences_eq hlt] at hreferences
  refine ⟨halves, pats, e, _, hsplit, haliases, he, hreferences.trans (List.map_append ..),
    hbindings ▸ hrow.declare _, hreferences ▸ references_inOrder ?_⟩
  exact List.pairwise_append.2 ⟨patReferences_sorted pats, references_sorted e,
    fun u hu v hv => Nat.le_of_lt (hlt u hu v hv)⟩

theorem readParameters_declare (hreader : f.reader.Faithful) (hf : f.KeepsOrder)
    (hblank : f.isBlank = false) (hx : f.readParameters = .ok x) : f.ParametersDeclare x := by
  obtain ⟨body, pats, inner, hbody, hfunction, hreferences, hbindings⟩ := readParameters_ok hblank hx
  have hspells := parameters_spell hreader hbody hfunction
  have hrow : InRow pats := by
    obtain ⟨params, rfl, hstand⟩ := parameters_stand hreader hbody hfunction
    exact hstand.inRow (w := ⟨f, .parameters⟩) hf hspells
  refine ⟨body, pats, inner, hbody, hfunction, ?_, ?_⟩
  · rw [hreferences, hbindings]
    exact hrow.declare _
  · rw [hreferences]
    exact references_inOrder (patReferences_sorted pats)

/-- The variables of patterns and the references that come of them do not overlap.  Whatever was read
of an iteration or of the parameters of a scope, the variables are the identifiers that the patterns bind,
in the order of the text; each reference that comes of the patterns is one of a default or a computed key
and has not the name of a variable; the references of what is gone over are those that it has alone; and
all references are in the order of the text.  Nothing comes of a text that is blank. -/
theorem patterns_declareApart (code : List Char) (gaps : Array Nat) (base : Nat) (lang : Lang)
    {reader : Reader} (hreader : reader.Faithful) (hg : gaps.toList.Pairwise (· < ·))
    (hfit : byteLength code < Offset.limit) :
    let f : Fragment := ⟨code, .atOffset gaps base, lang, reader⟩
    (∀ x, f.readIteration = .ok x → if f.isBlank then x = {} else f.IterationDeclares x) ∧
    ∀ x, f.readParameters = .ok x → if f.isBlank then x = {} else f.ParametersDeclare x := by
  intro f
  have hf : f.KeepsOrder := keepsOrder_atOffset hg hfit
  refine ⟨fun x hx => ?_, fun x hx => ?_⟩
  · split
    · next hblank =>
      rw [readIteration, if_pos hblank] at hx
      exact (Except.ok.inj hx).symm
    · next hblank => exact readIteration_declares hreader hf (by simpa using hblank) hx
  · split
    · next hblank =>
      rw [readParameters, if_pos hblank] at hx
      exact (Except.ok.inj hx).symm
    · next hblank => exact readParameters_declare hreader hf (by simpa using hblank) hx

/-- The names of the references and of the variables of what was read. -/
def names? (x : Except ReadFailure Embedded) : Option (List String × List String) :=
  x.toOption.map fun e => (e.references.toList.map Reference.name, e.bindings.toList.map Variable.name)

theorem exists_of_names? {y : Except ReadFailure Embedded} {names : List String × List String}
    (h : names? y = some names) : ∃ e, y = .ok e ∧
      (e.references.toList.map Reference.name, e.bindings.toList.map Variable.name) = names := by
  cases y with
  | ok e => exact ⟨e, rfl, Option.some.inj h⟩
  | error e => exact absurd h nofun

/-- The theorem at aliases of which one is what another has for its default, at one with the name of what
is gone over, and at parameters of a scope. -/
theorem patterns_declareApart_defaults :
    let f : Fragment := ⟨"({a = b, c: [d]}, e = a) in []".toList, .atOffset #[] 0, .javaScript, Script.parse⟩
    let g : Fragment := ⟨"a of a".toList, .atOffset #[] 0, .javaScript, Script.parse⟩
    let h : Fragment := ⟨"{a = b}, ...[c = a]".toList, .atOffset #[] 0, .typeScript, Script.parse⟩
    Reader.Faithful Script.parse ∧ (#[] : Array Nat).toList.Pairwise (· < ·) ∧
    (byteLength f.code < Offset.limit ∧ ∃ x, f.readIteration = .ok x ∧ f.IterationDeclares x ∧
      (x.references.toList.map Reference.name, x.bindings.toList.map Variable.name) =
        (["b"], ["a", "d", "e"])) ∧
    (byteLength g.code < Offset.limit ∧ ∃ x, g.readIteration = .ok x ∧ g.IterationDeclares x ∧
      (x.references.toList.map Reference.name, x.bindings.toList.map Variable.name) = (["a"], ["a"])) ∧
    byteLength h.code < Offset.limit ∧ ∃ x, h.readParameters = .ok x ∧ h.ParametersDeclare x ∧
      (x.references.toList.map Reference.name, x.bindings.toList.map Variable.name) =
        (["b"], ["a", "c"]) := by
  intro f g h
  have hg : (#[] : Array Nat).toList.Pairwise (· < ·) := .nil
  have hfitf : byteLength f.code < Offset.limit := by decide +kernel
  have hfitg : byteLength g.code < Offset.limit := by decide +kernel
  have hfith : byteLength h.code < Offset.limit := by decide +kernel
  obtain ⟨x, hx, hnamesx⟩ := exists_of_names?
    (show names? f.readIteration = some (["b"], ["a", "d", "e"]) by decide +kernel)
  obtain ⟨y, hy, hnamesy⟩ := exists_of_names?
    (show names? g.readIteration = some (["a"], ["a"]) by decide +kernel)
  obtain ⟨z, hz, hnamesz⟩ := exists_of_names?
    (show names? h.readParameters = some (["b"], ["a", "c"]) by decide +kernel)
  have hreader := Script.parse_faithful
  have hdeclaresx : if f.isBlank then x = {} else f.IterationDeclares x :=
    (patterns_declareApart f.code #[] 0 .javaScript hreader hg hfitf).1 x hx
  have hdeclaresy : if g.isBlank then y = {} else g.IterationDeclares y :=
    (patterns_declareApart g.code #[] 0 .javaScript hreader hg hfitg).1 y hy
  have hdeclaresz : if h.isBlank then z = {} else h.ParametersDeclare z :=
    (patterns_declareApart h.code #[] 0 .typeScript hreader hg hfith).2 z hz
  rw [if_neg (show ¬ f.isBlank = true by decide +kernel)] at hdeclaresx
  rw [if_neg (show ¬ g.isBlank = true by decide +kernel)] at hdeclaresy
  rw [if_neg (show ¬ h.isBlank = true by decide +kernel)] at hdeclaresz
  exact ⟨hreader, hg, ⟨hfitf, x, hx, hdeclaresx, hnamesx⟩, ⟨hfitg, y, hy, hdeclaresy, hnamesy⟩,
    hfith, z, hz, hdeclaresz, hnamesz⟩

end Fragment

end TemplateSyntax
