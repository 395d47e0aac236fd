import TemplateSyntax.Proofs.NamePlaces
import TemplateSyntax.Proofs.PreHonoured
import TemplateSyntax.Proofs.WrittenKeys

/-! # Which attributes declare variables

A directive is read in a way that its name alone decides, however the name is written.  So variables come
from iterations, that is from `v-for`, and from parameters: those of `v-slot`, of `#` and of the two plain
names for the scope of a slot, and those of the two names behind `v-` as well. -/

namespace TemplateSyntax

/-! ## What ways of reading declare -/

/-- If something is read, it declares nothing. -/
abbrev DeclaresNothing (r : Except ReadFailure Embedded) : Prop :=
  Fragment.Returns (fun e => e.bindings = #[]) r

namespace Fragment

variable (f : Fragment) {route : Route} {e : Embedded} {v : Variable}

theorem readPlain_declaresNothing : DeclaresNothing f.readPlain := by
  unfold readPlain
  split
  · exact .value rfl
  · exact .bind fun _ => .value rfl

theorem readExpression_declaresNothing (filters : Bool) : DeclaresNothing (f.readExpression filters) := by
  unfold readExpression
  split
  · exact .value rfl
  split
  · exact .bind fun _ => .bind fun _ => .value rfl
  · exact f.readPlain_declaresNothing

theorem readHandler_declaresNothing : DeclaresNothing f.readHandler := by
  unfold readHandler
  split
  · exact .value rfl
  dsimp only
  split
  · exact f.readPlain_declaresNothing
  · unfold readStatements
    refine .bind fun body => ?_
    split
    · exact .value rfl
    · exact .failure _

variable {f}

theorem kind_of_mem {kind : VariableKind} {pats : List Script.Pat}
    (hv : v ∈ Script.declaredVariables kind pats) : v.kind = kind := by
  obtain ⟨id, -, rfl⟩ := List.mem_map.1 hv
  rfl

/-- Iterations declare variables of their kind, and parameters of theirs. -/
theorem read_kind (h : f.read route = .ok e) (hv : v ∈ e.bindings.toList) :
    (route = .iteration ∧ v.kind = .iteration) ∨ (route = .parameters ∧ v.kind = .scope) := by
  have hnothing : e.bindings ≠ #[] := by
    intro hnil
    rw [hnil] at hv
    exact absurd hv List.not_mem_nil
  cases route with
  | expression filters => exact absurd (f.readExpression_declaresNothing filters e h) hnothing
  | handler => exact absurd (f.readHandler_declaresNothing e h) hnothing
  | iteration =>
    refine .inl ⟨rfl, ?_⟩
    cases hblank : f.isBlank with
    | true =>
      simp only [read, readIteration, hblank] at h
      exact absurd rfl (Except.ok.inj h ▸ hnothing)
    | false =>
      obtain ⟨halves, pats, e, -, -, -, -, hbindings⟩ := readIteration_ok hblank h
      rw [hbindings] at hv
      exact kind_of_mem hv
  | parameters =>
    refine .inr ⟨rfl, ?_⟩
    cases hblank : f.isBlank with
    | true =>
      simp only [read, readParameters, hblank] at h
      exact absurd rfl (Except.ok.inj h ▸ hnothing)
    | false =>
      obtain ⟨body, params, inner, -, -, -, hbindings⟩ := readParameters_ok hblank h
      rw [hbindings] at hv
      exact kind_of_mem hv

end Fragment

/-! ## How names are written -/

/-- A name of `v-` and a word, behind which there is an argument or a modifier or nothing. -/
def IsLong (word : String) (rawName : String) : Prop :=
  ∃ rest, rawName.toList = 'v' :: '-' :: (word.toList ++ rest) ∧
    ∀ c, rest.head? = some c → c = ':' ∨ c = '.'

/-- How the attribute of an element is written that declares variables of a kind. -/
inductive DeclaredBy (rawName element : String) : VariableKind → Prop
  | iteration (h : IsLong "for" rawName) : DeclaredBy rawName element .iteration
  | long {word : String} (hword : word ∈ ["slot", "slot-scope", "scope"]) (h : IsLong word rawName) :
    DeclaredBy rawName element .scope
  | sign (h : rawName.toList.head? = some '#') : DeclaredBy rawName element .scope
  | slotScope (h : rawName = "slot-scope") : DeclaredBy rawName element .scope
  | scope (h : rawName = "scope") (htemplate : element = "template") : DeclaredBy rawName element .scope

namespace KeyParts

variable {rawName element word : String}

/-- What the name of a directive is called, by how it is written. -/
theorem ofName_name (h : isDirectiveName rawName element = true) :
    IsLong (ofName rawName.toList).name rawName ∨
      (∃ c, rawName.toList.head? = some c ∧ ofSign? c = some (ofName rawName.toList).name) ∨
      ((ofName rawName.toList).name = rawName ∧
        (rawName = "slot-scope" ∨ (element = "template" ∧ rawName = "scope"))) := by
  rcases isDirectiveName_cases h with ⟨rest, hname⟩ | ⟨c, rest, hname, hc⟩ | rfl | ⟨htemplate, rfl⟩
  · refine .inl ⟨rest.dropWhile isNamePart, ?_, fun c => head?_dropWhile_isNamePart⟩
    rw [hname]
    simp [ofName, ofLongName]
  · refine .inr (.inl ⟨c, by rw [hname]; rfl, ?_⟩)
    rw [hname]
    simp only [List.mem_cons, List.not_mem_nil, or_false] at hc
    rcases hc with rfl | rfl | rfl | rfl <;> rfl
  · exact .inr (.inr ⟨by decide, .inl rfl⟩)
  · exact .inr (.inr ⟨by decide, .inr ⟨htemplate, rfl⟩⟩)

end KeyParts

namespace Reading

variable (r : Reading) {key : DirectiveKey} {id : Identifier} {element : String} {route : Route}

theorem name_of_iteration (h : r.route key = .iteration) : key.name.name = "for" := by
  unfold route at h
  split at h
  · next hname => exact hname
  all_goals
    first
    | cases h
    | (split at h <;> cases h)

theorem name_of_parameters (h : r.route key = .parameters) :
    key.name.name ∈ ["slot", "slot-scope", "scope"] := by
  unfold route at h
  split at h
  all_goals
    first
    | (next hname => rw [hname]; decide)
    | cases h
    | (split at h <;> cases h)

/-- A directive that is read as an iteration is written as one. -/
theorem declaredBy_of_iteration (hname : isDirectiveName id.rawName element = true)
    (h : r.route (r.key id).1 = .iteration) : DeclaredBy id.rawName element .iteration := by
  have hfor : (KeyParts.ofName id.rawName.toList).name = "for" := r.name_of_iteration h
  rcases KeyParts.ofName_name hname with hlong | ⟨c, -, hsign⟩ | ⟨hwhole, hnames⟩
  · exact .iteration (hfor ▸ hlong)
  · rw [hfor] at hsign
    unfold KeyParts.ofSign? at hsign
    repeat' split at hsign
    all_goals exact absurd hsign (by decide)
  · rw [← hwhole, hfor] at hnames
    rcases hnames with hnames | ⟨-, hnames⟩
    all_goals exact absurd hnames (by decide)

/-- A directive that is read as parameters is written in one of six ways. -/
theorem declaredBy_of_parameters (hname : isDirectiveName id.rawName element = true)
    (h : r.route (r.key id).1 = .parameters) : DeclaredBy id.rawName element .scope := by
  have hword : (KeyParts.ofName id.rawName.toList).name ∈ ["slot", "slot-scope", "scope"] :=
    r.name_of_parameters h
  rcases KeyParts.ofName_name hname with hlong | ⟨c, hhead, hsign⟩ | ⟨-, hnames⟩
  · exact .long hword hlong
  · refine .sign (hhead.trans (congrArg some ?_))
    unfold KeyParts.ofSign? at hsign
    repeat' split at hsign
    all_goals
      first
      | cases hsign
      | (rw [← Option.some.inj hsign] at hword
         exact absurd hword (by decide))
      | exact eq_of_beq (by assumption)
  · rcases hnames with hnames | ⟨htemplate, hnames⟩
    · exact .slotScope hnames
    · exact .scope hnames htemplate

end Reading

namespace Template

variable {text : String} {o : Options} {reader : Script.Reader} {id i : Nat}

/-- What is on record as a directive is one by its name. -/
theorem isDirectiveName_of_mem_directives (h : (id, i) ∈ (outlineOf text o).directives) :
    ∃ e a, (outlineOf text o).tree.element? id = some e ∧ e.attributes[i]? = some (.plain a) ∧
      isDirectiveName a.key.rawName e.name = true := by
  rw [outlineOf_directives] at h
  rw [outlineOf_tree]
  obtain ⟨e, a, he, ha, hchosen⟩ := (((builderOf_honours text o).directives id i).1 h).1
  refine ⟨e, a, he, ha, ?_⟩
  rcases hchosen with ⟨-, hpre⟩ | ⟨-, hname⟩
  · rw [hpre]
    rfl
  · exact hname

/-- The text of a value is read as the name of its attribute says. -/
theorem exists_valueText {x : EmbeddedText} (hx : x ∈ embeddedTexts text o reader)
    (hplace : x.place.isValueIn id = true) : ∃ e a, (outlineOf text o).tree.element? id = some e ∧
      .plain a ∈ e.attributes ∧ isDirectiveName a.key.rawName e.name = true ∧
      x.route = (readingOf text o reader).route ((readingOf text o reader).key a.key).1 := by
  rcases List.mem_append.1 hx with hx | hx
  · obtain ⟨⟨id', i⟩, hd, hx⟩ := List.mem_flatMap.1 hx
    obtain ⟨e, a, he, ha, hname⟩ := isDirectiveName_of_mem_directives (Array.mem_toList_iff.1 hd)
    rw [Reading.textsIn_eq _ (Option.bind_eq_some_iff.2 ⟨e, he, ha⟩)] at hx
    rcases List.mem_append.1 hx with hx | hx
    all_goals
      simp only [Option.mem_toList, Option.map_eq_some_iff] at hx
      obtain ⟨v, -, rfl⟩ := hx
    · exact absurd hplace Bool.false_ne_true
    · obtain rfl : id' = id := eq_of_beq hplace
      exact ⟨e, a, he, Array.mem_of_getElem? ha, hname, rfl⟩
  · obtain ⟨m, -, rfl⟩ := List.mem_map.1 hx
    exact absurd hplace Bool.false_ne_true

/-- A variable of an element is declared by an attribute that was written for its kind. -/
theorem binding_declaredBy {e : Element} (he : (parse text o reader).tree.element? id = some e)
    {v : Variable} (hv : v ∈ e.bindings) :
    ∃ e₀ a, (outlineOf text o).tree.element? id = some e₀ ∧ .plain a ∈ e₀.attributes ∧
      isDirectiveName a.key.rawName e₀.name = true ∧ DeclaredBy a.key.rawName e₀.name v.kind := by
  obtain ⟨x, hx, hplace, w, hdeclared, heq⟩ := exists_declared he hv
  have hkind : w.declaration.kind = v.declaration.kind := congrArg Variable.kind heq
  obtain ⟨e₀, a, he₀, ha, hname, hroute⟩ := exists_valueText hx hplace
  refine ⟨e₀, a, he₀, ha, hname, ?_⟩
  rw [← show w.kind = v.kind from hkind]
  unfold EmbeddedText.declared at hdeclared
  cases houtcome : x.outcome with
  | error f =>
    rw [houtcome] at hdeclared
    exact absurd hdeclared List.not_mem_nil
  | ok read =>
    rw [houtcome] at hdeclared
    rcases Fragment.read_kind houtcome hdeclared with ⟨hiteration, hw⟩ | ⟨hparameters, hw⟩
    · rw [hw]
      exact Reading.declaredBy_of_iteration _ hname (hroute.symm.trans hiteration)
    · rw [hw]
      exact Reading.declaredBy_of_parameters _ hname (hroute.symm.trans hparameters)

end Template
end TemplateSyntax
