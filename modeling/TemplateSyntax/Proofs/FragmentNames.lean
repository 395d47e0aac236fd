import TemplateSyntax.Proofs.EmbeddedTexts
import TemplateSyntax.Proofs.WrappedNames

/-! # Names that are read of a fragment

A fragment is read in a wrapping, as a whole or in parts.  Whatever comes of it, the references and the
variables are names of the fragment: each is at the place of a word of the text that spells it. -/

namespace TemplateSyntax

open Script
open Text (byteLength)

namespace Fragment

open Wrapping

variable {f g : Fragment} {e : Expr} {pats : List Pat} {x : Embedded}

/-- The references and variables of what was read are names of the fragment. -/
structure NamesAll (f : Fragment) (x : Embedded) : Prop where
  references : ∀ r ∈ x.references.toList, f.Names r.name r.span
  bindings : ∀ v ∈ x.bindings.toList, f.Names v.name v.span

theorem namesAll_nothing (f : Fragment) : f.NamesAll {} := ⟨by simp, by simp⟩

/-- References are names where the uses that they are of are. -/
theorem references_names {uses : List Use} (h : ∀ u ∈ uses, f.Names u.id.name u.id.span) :
    ∀ r ∈ uses.map Use.reference, f.Names r.name r.span := by
  intro r hr
  obtain ⟨u, hu, rfl⟩ := List.mem_map.1 hr
  exact h u hu

/-- The variables of patterns are names where the patterns are made of such. -/
theorem declaredVariables_names (kind : VariableKind) (h : f.Spells pats) :
    ∀ v ∈ declaredVariables kind pats, f.Names v.name v.span := by
  intro v hv
  obtain ⟨id, hid, rfl⟩ := List.mem_map.1 hv
  exact boundByPats_all pats (patsAll_iff.2 h) id hid

/-! ## Expressions -/

theorem readPlain_names (hreader : f.reader.Faithful) (hx : f.readPlain = .ok x) : f.NamesAll x := by
  unfold readPlain at hx
  split at hx
  · obtain rfl := Except.ok.inj hx
    exact f.namesAll_nothing
  · obtain ⟨e, he, hrest⟩ := bind_ok hx
    obtain rfl := Except.ok.inj hrest
    have hspells : e.All _ := readOne_spells hreader (.refl f) he
    exact ⟨references_names (Expr.references_all hspells), by simp⟩

/-- The arguments of a filter are made of names. -/
theorem readFilter_spells {r : ReadFilter} (hreader : g.reader.Faithful) (hg : g.PartOf f)
    (hr : g.readFilter = .ok r) : f.Spells r.arguments := by
  unfold readFilter at hr
  split at hr
  · exact absurd hr nofun
  · obtain ⟨e, he, hrest⟩ := bind_ok hr
    have hspells := readOne_spells hreader hg he
    split at hrest
    · obtain rfl := Except.ok.inj hrest
      exact fun a ha => absurd ha List.not_mem_nil
    · next span id arguments types =>
      obtain rfl := Except.ok.inj hrest
      have hcall : Expr.All _ (.call span (.ident id) arguments types) := hspells
      rw [Expr.All] at hcall
      exact argsAll_iff.1 hcall.2.1
    · exact absurd hrest nofun
    · exact absurd hrest nofun

theorem readFilters_spell {gs : List Fragment} {rs : List ReadFilter} (hreader : f.reader.Faithful)
    (hgs : ∀ g ∈ gs, g.PartOf f) (hrs : gs.mapM readFilter = .ok rs) :
    ∀ r ∈ rs, f.Spells r.arguments := by
  induction gs generalizing rs with
  | nil =>
    obtain rfl := Except.ok.inj hrs
    simp
  | cons g gs ih =>
    have hg : g.PartOf f := hgs g (by simp)
    rw [List.mapM_cons] at hrs
    obtain ⟨r, hr, hrest⟩ := bind_ok hrs
    obtain ⟨rs', hrs', hpure⟩ := bind_ok hrest
    obtain rfl := Except.ok.inj hpure
    intro y hy
    rcases List.mem_cons.1 hy with rfl | hy
    · exact readFilter_spells (hg.reader ▸ hreader) hg hr
    · exact ih (fun z hz => hgs z (by simp [hz])) hrs' y hy

theorem readFiltered_names {gs : List Fragment} (hreader : f.reader.Faithful) (hg : g.PartOf f)
    (hgs : ∀ y ∈ gs, y.PartOf f) (hx : g.readFiltered gs = .ok x) : f.NamesAll x := by
  unfold readFiltered at hx
  obtain ⟨e, he, hrest⟩ := bind_ok hx
  obtain ⟨rs, hrs, hpure⟩ := bind_ok hrest
  obtain rfl := Except.ok.inj hpure
  have hspells : e.All _ := readOne_spells (hg.reader ▸ hreader) hg he
  refine ⟨references_names (filteredReferences_all hspells (argsAll_iff.2 fun a ha => ?_)), by simp⟩
  obtain ⟨r, hr, har⟩ := List.mem_flatMap.1 ha
  exact readFilters_spell hreader hgs hrs r hr a har

theorem readExpression_names {filters : Bool} (hreader : f.reader.Faithful)
    (hx : f.readExpression filters = .ok x) : f.NamesAll x := by
  unfold readExpression at hx
  split at hx
  · obtain rfl := Except.ok.inj hx
    exact f.namesAll_nothing
  · have hparts : ∀ p ∈ (if filters then Script.Scan.splitFilters f.code else []),
        (f.part p.start p.code).PartOf f := by
      intro p hp
      split at hp
      · exact partOf_part (Script.Scan.splitFilters_between hp)
      · simp at hp
    split at hx
    · next head next more heq =>
      rw [heq] at hparts
      refine readFiltered_names hreader (hparts head (by simp)) (fun y hy => ?_) hx
      obtain ⟨p, hp, rfl⟩ := List.mem_map.1 hy
      exact hparts p (List.mem_cons_of_mem head hp)
    · exact readPlain_names hreader hx

/-! ## Aliases and parameters -/

theorem wrappedAliases_eq_elements {script : List Stmt} (h : wrappedAliases script = .elements pats) :
    ∃ span isVar listSpan init ds right inner, script =
      [.forEach .forOf span (.declaration isVar (.mk (.array listSpan pats) init :: ds)) right inner] := by
  unfold wrappedAliases at h
  split at h
  · split at h
    · obtain rfl := WrappedAliases.elements.inj h
      exact ⟨_, _, _, _, _, _, _, rfl⟩
    · exact absurd h nofun
  · exact absurd h nofun

/-- Aliases that were read stand between the brackets of the wrapping. -/
theorem readAliases_stand (hreader : f.reader.Faithful) (hx : f.readAliases = .ok pats) :
    ∃ elements, pats = (mapPats (Wrapped.mk f .aliases).host elements).filter isPresent ∧
      StandUpTo (aliases.wrap f.code) elements 9 ']' := by
  obtain ⟨body, hbody, hrest⟩ := bind_ok hx
  obtain ⟨script, hscript, rfl⟩ := parse_ok hbody
  rw [wrappedAliases_map] at hrest
  cases helements : wrappedAliases script with
  | elements elements =>
    rw [helements] at hrest
    obtain ⟨span, isVar, listSpan, init, ds, right, inner, rfl⟩ := wrappedAliases_eq_elements helements
    have hwrap : aliases.wrap f.code = "for(let [".toList ++ (f.code ++ "] of 0);".toList) :=
      List.append_assoc ..
    have hread : f.reader f.lang (aliases.wrap f.code) = .ok _ := hscript
    rw [hwrap] at hread
    have hstand := hreader.loop hread
    rw [← hwrap] at hstand
    exact ⟨elements, (Except.ok.inj hrest).symm, hstand⟩
  | otherHead | otherScript =>
    rw [helements] at hrest
    exact absurd hrest nofun

/-- Aliases that were read of a part are made of names of the fragment. -/
theorem readAliases_spell (hreader : g.reader.Faithful) (hg : g.PartOf f)
    (hx : g.readAliases = .ok pats) : f.Spells pats := by
  obtain ⟨elements, rfl, hstand⟩ := readAliases_stand hreader hx
  have hlast : ']' ∉ " of 0);".toList := by decide
  have hspells := pats_spell (w := .aliases) hg hstand hlast (.inl rfl)
  exact fun p hp => hspells p (List.mem_filter.1 hp).1

/-- Parameters that were read stand between the parentheses of the wrapping. -/
theorem parameters_stand {body inner : List Stmt} (hreader : f.reader.Faithful)
    (hbody : Wrapped.parse ⟨f, .parameters⟩ = .ok body)
    (hfunction : wrappedFunction? body = some (.mk pats inner)) :
    ∃ params, pats = mapPats (Wrapped.mk f .parameters).host params ∧
      StandUpTo (parameters.wrap f.code) params 14 ')' := by
  obtain ⟨span, voidSpan, fnSpan, name, ⟨params, statements⟩, hscript, heq⟩ := function_ok hbody hfunction
  rw [Func.map] at heq
  obtain ⟨rfl, -⟩ := Func.mk.inj heq
  have hwrap : parameters.wrap f.code = "void function(".toList ++ (f.code ++ "\n) \x7b\x7d".toList) :=
    List.append_assoc ..
  have hread : f.reader f.lang (parameters.wrap f.code) = .ok _ := hscript
  rw [hwrap] at hread
  have hfunction := hreader.function hread
  have hparams := hfunction.parameters
  rw [hfunction.starts.2, ← hwrap] at hparams
  exact ⟨params, rfl, hparams _ ⟨"void ".toList, hwrap, rfl⟩⟩

/-- Parameters that were read are made of names of the fragment. -/
theorem parameters_spell {body inner : List Stmt} (hreader : f.reader.Faithful)
    (hbody : Wrapped.parse ⟨f, .parameters⟩ = .ok body)
    (hfunction : wrappedFunction? body = some (.mk pats inner)) : f.Spells pats := by
  obtain ⟨params, rfl, hstand⟩ := parameters_stand hreader hbody hfunction
  have hlast : ')' ∉ " \x7b\x7d".toList := by decide
  exact pats_spell (w := .parameters) (.refl f) hstand hlast (.inr rfl)

/-- The part of the aliases: what is in front of the separator, without the blanks and parentheses
around it. -/
def aliasPart (f : Fragment) (left : List Char) : Fragment :=
  let trimmed := Text.trim left
  match betweenParens? trimmed with
  | some code => f.part ((f.part 0 left).trimStart + 1) code
  | none => f.part (f.part 0 left).trimStart trimmed

theorem aliasPart_partOf {halves : Script.Scan.Halves}
    (h : Script.Scan.splitIteration f.code = some halves) :
    (f.aliasPart halves.left).PartOf f := by
  unfold aliasPart
  dsimp only
  split
  · next hinner => exact partOf_part (between_innerAliases h hinner)
  · exact partOf_part (between_aliases h)

/-- An iteration that is read has aliases and something that it goes over. -/
theorem readIteration_ok (hblank : f.isBlank = false) (hx : f.readIteration = .ok x) :
    ∃ halves pats e, Script.Scan.splitIteration f.code = some halves ∧
      (f.aliasPart halves.left).readAliases = .ok pats ∧
      (f.part halves.right.start halves.right.code).readOne = .ok e ∧
      x.references.toList = iterationReferences pats e ∧
      x.bindings.toList = declaredVariables .iteration pats := by
  unfold readIteration at hx
  rw [hblank, if_neg Bool.false_ne_true] at hx
  cases hsplit : Script.Scan.splitIteration f.code with
  | none =>
    rw [hsplit] at hx
    exact absurd hx nofun
  | some halves =>
    rw [hsplit] at hx
    dsimp only at hx
    by_cases hleft : (f.part 0 halves.left).isBlank = true
    · rw [if_pos hleft] at hx
      exact absurd hx nofun
    · rw [if_neg hleft] at hx
      obtain ⟨pats, haliases, hrest⟩ := bind_ok hx
      obtain ⟨e, he, hpure⟩ := bind_ok hrest
      obtain rfl := Except.ok.inj hpure
      exact ⟨halves, pats, e, rfl, haliases, he, rfl, rfl⟩

theorem readParameters_ok (hblank : f.isBlank = false) (hx : f.readParameters = .ok x) :
    ∃ body params inner, Wrapped.parse ⟨f, .parameters⟩ = .ok body ∧
      wrappedFunction? body = some (.mk params inner) ∧
      x.references.toList = (patReferences params).map Use.reference ∧
      x.bindings.toList = declaredVariables .scope params := by
  unfold readParameters at hx
  rw [hblank, if_neg Bool.false_ne_true] at hx
  obtain ⟨body, hbody, hrest⟩ := bind_ok hx
  split at hrest
  · exact absurd hrest nofun
  · next inner hfunction =>
    obtain rfl := Except.ok.inj hrest
    refine ⟨body, [], inner, hbody, hfunction, ?_, ?_⟩
    · simp [patReferences, declarePats, Frames.root, Frames.finish, Frames.unresolved]
    · rw [declaredVariables, boundByPats]
      rfl
  · next params inner _ hfunction =>
    obtain rfl := Except.ok.inj hrest
    exact ⟨body, params, inner, hbody, hfunction, rfl, rfl⟩

theorem readIteration_names (hreader : f.reader.Faithful) (hx : f.readIteration = .ok x) :
    f.NamesAll x := by
  by_cases hblank : f.isBlank = true
  · rw [readIteration, if_pos hblank] at hx
    obtain rfl := Except.ok.inj hx
    exact f.namesAll_nothing
  · obtain ⟨halves, pats, e, hsplit, haliases, he, hreferences, hbindings⟩ :=
      readIteration_ok (by simpa using hblank) hx
    obtain ⟨-, -, hright⟩ := Script.Scan.splitIteration_between hsplit
    have hpart := aliasPart_partOf hsplit
    have hrpart : (f.part halves.right.start halves.right.code).PartOf f :=
      partOf_part (by rwa [← hright.1])
    have hpats := readAliases_spell (hpart.reader ▸ hreader) hpart haliases
    have hspells : e.All _ := readOne_spells (hrpart.reader ▸ hreader) hrpart he
    refine ⟨fun r hr => ?_, hbindings ▸ declaredVariables_names _ hpats⟩
    rw [hreferences, mem_iterationReferences] at hr
    rcases hr with hr | hr
    · exact references_names (Expr.references_all hspells) r hr
    · exact references_names (patReferences_all (patsAll_iff.2 hpats)) r hr

theorem readParameters_names (hreader : f.reader.Faithful) (hx : f.readParameters = .ok x) :
    f.NamesAll x := by
  by_cases hblank : f.isBlank = true
  · rw [readParameters, if_pos hblank] at hx
    obtain rfl := Except.ok.inj hx
    exact f.namesAll_nothing
  · obtain ⟨body, params, inner, hbody, hfunction, hreferences, hbindings⟩ :=
      readParameters_ok (by simpa using hblank) hx
    have hspells := parameters_spell hreader hbody hfunction
    exact ⟨hreferences ▸ references_names (patReferences_all (patsAll_iff.2 hspells)),
      hbindings ▸ declaredVariables_names _ hspells⟩

/-! ## Handlers, and all of them -/

theorem readStatements_names (hreader : f.reader.Faithful) (hx : f.readStatements = .ok x) :
    f.NamesAll x := by
  obtain ⟨span, voidSpan, fnSpan, name, params, body, hread, rfl⟩ := readStatements_ok hx
  have hspells := statements_spell (ownFunction_of_read hreader hread)
  exact ⟨references_names (bodyReferences_all _ (stmtsAll_iff.2 hspells)), by simp⟩

/-- The references of a handler are the uses of names in its statements, but for the event and what the
statements declare outside of all scopes of their own. -/
theorem mem_readStatements_references (hx : f.readStatements = .ok x) :
    ∃ script params body, Wrapped.parse ⟨f, .statements⟩ = .ok script ∧
      wrappedFunction? script = some (.mk params body) ∧
      ∀ r, r ∈ x.references ↔ ∃ u ∈ (stmtsEffect body).uses, u.reference = r ∧
        u.id.name ∉ (stmtsEffect body).names.map Prod.snd ∧ u.id.name ≠ eventName := by
  obtain ⟨script, hscript, hrest⟩ := bind_ok hx
  cases hfunction : wrappedFunction? script with
  | none =>
    rw [hfunction] at hrest
    exact absurd hrest nofun
  | some y =>
    obtain ⟨params, body⟩ := y
    rw [hfunction] at hrest
    obtain rfl := Except.ok.inj hrest
    refine ⟨script, params, body, hscript, hfunction, fun r => ?_⟩
    simp only [List.mem_toArray, List.mem_map, mem_bodyReferences_iff, List.mem_singleton]
    exact ⟨fun ⟨u, ⟨hu, hfree⟩, hr⟩ => ⟨u, hu, hr, hfree⟩, fun ⟨u, hu, hr, hfree⟩ => ⟨u, ⟨hu, hfree⟩, hr⟩⟩

theorem readHandler_names (hreader : f.reader.Faithful) (hx : f.readHandler = .ok x) :
    f.NamesAll x := by
  unfold readHandler at hx
  split at hx
  · obtain rfl := Except.ok.inj hx
    exact f.namesAll_nothing
  · dsimp only at hx
    split at hx
    · exact readPlain_names hreader hx
    · exact readStatements_names hreader hx

/-- In whatever way a fragment is read, references and variables are names of it. -/
theorem read_names (hreader : f.reader.Faithful) {route : Route} (hx : f.read route = .ok x) :
    f.NamesAll x := by
  cases route with
  | expression filters => exact readExpression_names hreader hx
  | iteration => exact readIteration_names hreader hx
  | handler => exact readHandler_names hreader hx
  | parameters => exact readParameters_names hreader hx

end Fragment

end TemplateSyntax
