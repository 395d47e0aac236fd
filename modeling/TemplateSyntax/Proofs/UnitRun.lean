import TemplateSyntax.Proofs.CharactersKept
import TemplateSyntax.Proofs.ImpliedEnds
import TemplateSyntax.Proofs.ModeAgrees

/-! # Units one after the other

The tree builder takes the units of a template one by one, and pulling tokens in between changes neither
its tree nor the elements that are open.  Here is what each unit does to them.  A start tag adds one
element, an end tag gives one element its end or is refused, and a node that is closed stays as it is. -/

namespace TemplateSyntax

/-- No content belongs to the element: its start tag says so, or its name does. -/
def Element.isLeaf (e : Element) : Bool :=
  e.selfClosing || (e.ns == .html && ElementClass.voidElements.contains e.name)

/-- Whether the cause is that no open element fits an end tag. -/
def Cause.isInvalidEndTag : Cause → Bool
  | .invalidEndTag _ => true
  | _ => false

namespace Tree

variable {t t' : Tree} {j p : Nat}

/-- A node is added to trees that differ in places only. -/
theorem SameNodes.append (h : t.SameNodes t') (p : Nat) (content : NodeContent) (extent : Extent) :
    (t.append p content extent).SameNodes (t'.append p content extent) := by
  intro j
  by_cases hj : j = t.size
  · subst hj
    rw [node?_append_self]
    conv_lhs => rw [← h.size, node?_append_self]
  · have hj' : j ≠ t'.size := by rwa [h.size]
    rw [node?_append hj, node?_append hj', node?_modify, node?_modify, h.size]
    split
    · have hchild : ∀ n : Node, ((n.addChild t.size).content, (n.addChild t.size).parent) =
          (((Node.mk n.content n.parent default).addChild t.size).content, n.parent) := by
        rintro ⟨content, parent, extent⟩
        cases content <;> rfl
      have hmap := h.map_eq
        (fun x => (((Node.mk x.1 x.2 default).addChild t.size).content, x.2)) j
      simpa only [Option.map_map, Function.comp_def, hchild] using hmap
    · exact h j

theorem SameNodes.element? (h : t.SameNodes t') (j : Nat) : t'.element? j = t.element? j := by
  have hjoin : ∀ t : Tree, t.element? j =
      ((t.node? j).map fun n => (Node.mk n.content n.parent default).element?).join := by
    intro t
    rw [Tree.element?]
    cases t.node? j <;> rfl
  rw [hjoin, hjoin]
  exact congrArg Option.join (h.map_eq (fun n => (Node.mk n.1 n.2 default).element?) j)

/-- A node that is added changes the one that it goes to, and no other. -/
theorem node?_append_of_ne {content : NodeContent} {extent : Extent} (hj : j ≠ t.size) (hp : p ≠ j) :
    (t.append p content extent).node? j = t.node? j := by
  rw [node?_append hj, node?_modify_of_ne hp]

end Tree

namespace Builder

open TemplateSyntax.Tree (tip)

variable {b b' b'' : Builder} {id j : Nat} {inner outer : List Nat} {tag : EndTag}
  {ms ms' : List (Builder × MarkupUnit)} {u : MarkupUnit}

/-! ## What is left alone -/

theorem closeElement_node? (b : Builder) (hj : id ≠ j) :
    (b.closeElement id).tree.node? j = b.tree.node? j := by
  unfold closeElement
  dsimp only
  cases b.tree.element? id with
  | none => split <;> rfl
  | some e => split <;> exact Tree.node?_modify_of_ne hj

/-- Only elements that are closed get their places. -/
theorem closeInnermost_node? {count : Nat} (hj : j ∉ b.opened.take count) :
    (b.closeInnermost count).tree.node? j = b.tree.node? j := by
  induction count generalizing b with
  | zero => rfl
  | succ count ih =>
    cases ho : b.opened with
    | nil => rw [closeInnermost_nil ho]
    | cons id outer =>
      rw [ho, List.take_succ_cons, List.mem_cons, not_or] at hj
      rw [closeInnermost_cons ho, ih (by rw [closeElement_opened]; exact hj.2)]
      exact closeElement_node? { b with opened := outer } (Ne.symm hj.1)

theorem closeElement_diagnostics (b : Builder) (id : Nat) :
    (b.closeElement id).diagnostics = b.diagnostics := by
  unfold closeElement
  dsimp only
  split <;> rfl

theorem closeInnermost_diagnostics (b : Builder) (count : Nat) :
    (b.closeInnermost count).diagnostics = b.diagnostics := by
  induction count generalizing b with
  | zero => rfl
  | succ count ih =>
    rw [closeInnermost]
    split
    · next id outer _ => exact (ih _).trans (closeElement_diagnostics { b with opened := outer } id)
    · rfl

theorem placeRoot_closeAll_diagnostics (b : Builder) :
    b.closeAll.placeRoot.diagnostics = b.diagnostics :=
  b.closeInnermost_diagnostics b.opened.length

/-- The builder with another log. -/
def withLog (b : Builder) (log : Array LogEntry) : Builder :=
  { b with lexer := { b.lexer with log } }

/-- A unit that is taken is logged on request, and nothing else happens before it is looked at. -/
theorem onUnit_withLog (b : Builder) (u : MarkupUnit) : ∃ log, b.onUnit u =
    match u with
    | .startTag tag => (b.withLog log).onStartTag tag
    | .endTag tag => (b.withLog log).onEndTag tag
    | .text run => (b.withLog log).onText run
    | .mustache m => (b.withLog log).onMustache m := by
  have hlog : ∃ log, (if b.lexer.tracing then b.logged (.pulled b.opened.length u.extent.span) else b) =
      b.withLog log := by
    split
    · exact ⟨b.lexer.log.push _, rfl⟩
    · exact ⟨b.lexer.log, rfl⟩
  obtain ⟨log, hlog⟩ := hlog
  refine ⟨log, ?_⟩
  unfold onUnit
  dsimp only
  rw [hlog]
  cases u <;> rfl

/-! ## Start tags -/

/-- A start tag has added the element `e`, where the elements `outer` were open. -/
structure Adds (b : Builder) (tag : StartTag) (e : Element) (outer : List Nat) (b' : Builder) : Prop where
  closes : outer = b.opened ∨ ∃ id, b.opened = id :: outer
  rawName : e.rawName = tag.rawName
  name : e.name = e.ns.elementName tag.rawName
  selfClosing : e.selfClosing = tag.selfClosing
  startTag : e.startTag = tag.extent
  endTag : e.endTag = none
  children : e.children = #[]
  nodes : (b.tree.append (tip outer) (.element e) tag.extent).SameNodes b'.tree
  frame : ∀ j < b.tree.size, j ∉ b.opened → j ≠ tip outer → b'.tree.node? j = b.tree.node? j
  opened : b'.opened = if e.isLeaf then outer else b.tree.size :: outer

/-- The end tags that fit no open element. -/
def refusals (b : Builder) : List Diagnostic :=
  b.diagnostics.toList.filter (·.cause.isInvalidEndTag)

theorem refusals_congr (h : b'.diagnostics = b.diagnostics) : b'.refusals = b.refusals := by
  rw [refusals, refusals, h]

/-- One open element is closed at most, the innermost one. -/
theorem closeImplied_spec (b : Builder) (name : String) : ∃ outer,
    (outer = b.opened ∨ ∃ id, b.opened = id :: outer) ∧ (b.closeImplied name).opened = outer ∧
      b.tree.SameNodes (b.closeImplied name).tree ∧
      (b.closeImplied name).diagnostics = b.diagnostics ∧
      ∀ j ∉ b.opened, (b.closeImplied name).tree.node? j = b.tree.node? j := by
  unfold closeImplied
  split
  · next id outer e ho _ =>
    split
    · refine ⟨outer, .inr ⟨id, ho⟩, closeElement_opened _ id, closeElement_sameNodes _ id,
        closeElement_diagnostics _ id, fun j hj => ?_⟩
      rw [ho] at hj
      exact closeElement_node? { b with opened := outer } (List.ne_of_not_mem_cons hj).symm
    · exact ⟨_, .inl rfl, rfl, .refl _, rfl, fun _ _ => rfl⟩
  · exact ⟨_, .inl rfl, rfl, .refl _, rfl, fun _ _ => rfl⟩

theorem report_refusals (b : Builder) {cause : Cause} (hc : cause.isInvalidEndTag = false)
    (offset : Nat) : (b.report cause offset).refusals = b.refusals := by
  show (b.diagnostics.push (b.locator.diagnose cause offset)).toList.filter
    (·.cause.isInvalidEndTag) = _
  rw [Array.toList_push, List.filter_append, List.filter_singleton,
    show (b.locator.diagnose cause offset).cause.isInvalidEndTag = false from hc]
  exact List.append_nil _

theorem checkNamespaces_refusals (b : Builder) (ns : Namespace)
    (attributes : Array PlainAttribute) :
    (b.checkNamespaces ns attributes).refusals = b.refusals := by
  unfold checkNamespaces
  refine Array.foldl_induction (fun _ (b' : Builder) => b'.refusals = b.refusals) rfl
    fun i b' ih => ?_
  split
  · exact ih
  · split
    · exact ih
    · exact (report_refusals b' rfl _).trans ih

theorem scheduleDirectives_diagnostics (b : Builder) (id : Nat) (name : String)
    (attributes : Array PlainAttribute) :
    (b.scheduleDirectives id name attributes).diagnostics = b.diagnostics := by
  unfold scheduleDirectives
  split
  · rfl
  · dsimp only
    split <;> rfl

/-- A start tag adds one element.  It is open then, unless it is a leaf. -/
theorem onStartTag_adds (b : Builder) (tag : StartTag) : ∃ e outer,
    b.Adds tag e outer (b.onStartTag tag) ∧ (b.onStartTag tag).refusals = b.refusals := by
  unfold Builder.onStartTag
  dsimp only
  obtain ⟨outer, hcloses, hopened₀, hsame, hdiagnostics₀, hframe⟩ :=
    closeImplied_spec b tag.rawName.toLower
  generalize b.closeImplied tag.rawName.toLower = b₀ at *
  generalize ElementClass.namespaceOf b₀.currentElement? tag.rawName.toLower tag = ns
  have hdraft := checkNamespaces_draft b₀ ns (tag.attributes.map (plainAttribute ns))
  have hrefusals := checkNamespaces_refusals b₀ ns (tag.attributes.map (plainAttribute ns))
  generalize b₀.checkNamespaces ns (tag.attributes.map (plainAttribute ns)) = b₁ at hdraft hrefusals
  have htree : b₁.tree = b₀.tree := congrArg Draft.tree hdraft
  have hopened : b₁.opened = outer := (congrArg Draft.opened hdraft).trans hopened₀
  have hsize : b₁.tree.size = b.tree.size := by rw [htree, hsame.size]
  generalize hnew : Element.mk _ _ _ _ _ _ _ _ _ = e
  have hparts : e.name = ns.elementName tag.rawName ∧ e.rawName = tag.rawName ∧ e.ns = ns ∧
      e.selfClosing = tag.selfClosing ∧ e.startTag = tag.extent ∧ e.endTag = none ∧
      e.children = #[] := by
    rw [← hnew]
    exact ⟨rfl, rfl, rfl, rfl, rfl, rfl, rfl⟩
  obtain ⟨hname, hraw, hns, hself, hstart, hend, hchildren⟩ := hparts
  have htree₁ : (b₁.addNode (.element e) tag.extent).tree =
      b₀.tree.append (tip outer) (.element e) tag.extent := by
    show b₁.tree.append b₁.current (.element e) tag.extent = _
    rw [htree, current, hopened]
    rfl
  have hscheduled := scheduleDirectives_diagnostics (b₁.addNode (.element e) tag.extent)
    b₁.tree.size (ns.elementName tag.rawName) (tag.attributes.map (plainAttribute ns))
  obtain ⟨found, -, hdraft₂⟩ := scheduleDirectives_draft (b₁.addNode (.element e) tag.extent)
    b₁.tree.size (ns.elementName tag.rawName) (tag.attributes.map (plainAttribute ns))
  generalize (b₁.addNode (.element e) tag.extent).scheduleDirectives _ _ _ = b₂ at hscheduled hdraft₂ ⊢
  have htree₂ : b₂.tree = b₀.tree.append (tip outer) (.element e) tag.extent :=
    (congrArg Draft.tree hdraft₂).trans htree₁
  have hopened₂ : b₂.opened = outer := (congrArg Draft.opened hdraft₂).trans hopened
  have hnodes : (b.tree.append (tip outer) (.element e) tag.extent).SameNodes b₂.tree := by
    rw [htree₂]
    exact hsame.append _ _ _
  have hframe₂ : ∀ j < b.tree.size, j ∉ b.opened → j ≠ tip outer →
      b₂.tree.node? j = b.tree.node? j := fun j hj hopen htip => by
    rw [htree₂, Tree.node?_append_of_ne (by rw [hsame.size]; exact Nat.ne_of_lt hj) htip.symm]
    exact hframe j hopen
  have hrefusals₂ : b₂.refusals = b.refusals :=
    (refusals_congr (b := b₁) hscheduled).trans (hrefusals.trans (refusals_congr hdiagnostics₀))
  have hleaf : (tag.selfClosing || (ns == .html &&
      ElementClass.voidElements.contains (ns.elementName tag.rawName))) = e.isLeaf := by
    rw [Element.isLeaf, hself, hns, hname]
  rw [hleaf]
  refine ⟨e, outer, ?_, ?_⟩
  · refine ⟨hcloses, hraw, by rw [hname, hns], hself, hstart, hend, hchildren, ?_, ?_, ?_⟩
    · split
      · exact hnodes.trans (closeElement_sameNodes b₂ _)
      · exact hnodes
    · intro j hj hopen htip
      split
      · rw [closeElement_node? b₂ (by rw [hsize]; exact (Nat.ne_of_lt hj).symm)]
        exact hframe₂ j hj hopen htip
      · exact hframe₂ j hj hopen htip
    · cases e.isLeaf
      · show b₁.tree.size :: b₂.opened = b.tree.size :: outer
        rw [hsize, hopened₂]
      · exact (closeElement_opened b₂ _).trans hopened₂
  · split
    · exact (refusals_congr (closeElement_diagnostics b₂ _)).trans hrefusals₂
    · exact hrefusals₂

/-! ## End tags -/

/-- An end tag has given the element `id` its end, and has closed it with the elements `inner` in it. -/
structure Ends (b : Builder) (tag : EndTag) (inner : List Nat) (id : Nat) (outer : List Nat)
    (b' : Builder) : Prop where
  nodes : (b.tree.modifyElement id fun e => { e with endTag := some tag.extent }).SameNodes b'.tree
  frame : ∀ j ∉ inner, j ≠ id → b'.tree.node? j = b.tree.node? j
  opened : b'.opened = outer
  diagnostics : b'.diagnostics = b.diagnostics

/-- The innermost open element that an end tag fits gets it. -/
theorem onEndTag_ends (ho : b.opened = inner ++ id :: outer) (hid : b.closes tag.rawName id = true)
    (hinner : ∀ j ∈ inner, b.closes tag.rawName j = false) :
    b.Ends tag inner id outer (b.onEndTag tag) := by
  have hfind : b.opened.find? (b.closes tag.rawName) = some id := by
    rw [ho, List.find?_append, List.find?_eq_none.2 fun j hj => by simp [hinner j hj]]
    exact List.find?_cons_of_pos hid
  have hindex : b.opened.findIdx? (b.closes tag.rawName) = some inner.length := by
    rw [ho, List.findIdx?_append, List.findIdx?_eq_none_iff.2 hinner, List.findIdx?_cons, hid]
    simp
  have htake : b.opened.take (inner.length + 1) = inner ++ [id] := by
    rw [ho, show inner ++ id :: outer = (inner ++ [id]) ++ outer by simp, List.take_left' (by simp)]
  have hdrop : b.opened.drop (inner.length + 1) = outer := by
    rw [ho, show inner ++ id :: outer = (inner ++ [id]) ++ outer by simp, List.drop_left' (by simp)]
  obtain ⟨hsame, hopened⟩ := closeInnermost_sameNodes
    { b with tree := b.tree.modifyElement id fun e => { e with endTag := some tag.extent } }
    (inner.length + 1)
  rw [onEndTag, hfind, hindex]
  refine ⟨hsame, fun j hj hne => ?_, hopened.trans hdrop, closeInnermost_diagnostics _ _⟩
  have hout : j ∉ b.opened.take (inner.length + 1) := by
    rw [htake]
    simp [hj, hne]
  exact (closeInnermost_node? (by exact hout)).trans (Tree.node?_modify_of_ne hne.symm)

/-- If an end tag fits an open element, there is an innermost one that it fits. -/
theorem exists_closes {rawName : String} (h : ¬ ∀ j ∈ b.opened, b.closes rawName j = false) :
    ∃ inner id outer, b.opened = inner ++ id :: outer ∧ b.closes rawName id = true ∧
      ∀ j ∈ inner, b.closes rawName j = false := by
  cases hfind : b.opened.find? (b.closes rawName) with
  | none => exact absurd (fun j hj => by simpa using List.find?_eq_none.1 hfind j hj) h
  | some id =>
    obtain ⟨hid, inner, outer, ho, hinner⟩ := List.find?_eq_some_iff_append.1 hfind
    exact ⟨inner, id, outer, ho, hid, fun j hj => by simpa using hinner j hj⟩

/-- An end tag that fits no open element is reported. -/
theorem onEndTag_refuses (hnone : ∀ j ∈ b.opened, b.closes tag.rawName j = false) :
    b.onEndTag tag = b.report (.invalidEndTag tag.rawName.toLower) tag.extent.span.start := by
  have hfind : b.opened.find? (b.closes tag.rawName) = none :=
    List.find?_eq_none.2 fun j hj => by simp [hnone j hj]
  rw [onEndTag, hfind]
  split
  · next heq => simp at heq
  · rfl

/-! ## Runs of units -/

/-- The builder `b'` comes from `b` by taking units and reading on in between. -/
inductive Follows (b : Builder) : List (Builder × MarkupUnit) → Builder → Prop
  | nothing : Follows b [] b
  | unit {ms : List (Builder × MarkupUnit)} {b' : Builder} (h : Follows b ms b') (u : MarkupUnit) :
      Follows b (ms ++ [(b', u)]) (b'.onUnit u)
  | read {ms : List (Builder × MarkupUnit)} {b' : Builder} (h : Follows b ms b') (x : Lexer)
      (a : Assembler) : Follows b ms { b' with lexer := x, assembler := a }

namespace Follows

theorem trans (h : b.Follows ms b') (h' : b'.Follows ms' b'') : b.Follows (ms ++ ms') b'' := by
  induction h' with
  | nothing => rwa [List.append_nil]
  | unit h' u ih =>
    rw [← List.append_assoc]
    exact ih.unit u
  | read h' x a ih => exact ih.read x a

/-- A run stands at the builder that takes a unit, and goes on behind that unit. -/
theorem split (h : b.Follows (ms ++ (b', u) :: ms') b'') :
    b.Follows ms b' ∧ (b'.onUnit u).Follows ms' b'' := by
  generalize hall : ms ++ (b', u) :: ms' = all at h
  induction h generalizing ms' with
  | nothing => simp at hall
  | @unit front b₁ h v ih =>
    rcases List.eq_nil_or_concat ms' with rfl | ⟨behind, m, rfl⟩
    · obtain ⟨rfl, hlast⟩ := List.append_inj' hall rfl
      obtain ⟨rfl, rfl⟩ := Prod.mk.inj (List.singleton_inj.1 hlast)
      exact ⟨h, .nothing⟩
    · rw [List.concat_eq_append, ← List.cons_append, ← List.append_assoc] at hall
      obtain ⟨hfront, hlast⟩ := List.append_inj' hall rfl
      obtain rfl := List.singleton_inj.1 hlast
      obtain ⟨hto, hfrom⟩ := ih hfront
      rw [List.concat_eq_append]
      exact ⟨hto, hfrom.unit v⟩
  | read h x a ih =>
    obtain ⟨hto, hfrom⟩ := ih hall
    exact ⟨hto, hfrom.read x a⟩

end Follows

/-- Units in a row, each with the builder that takes it. -/
def takers : List MarkupUnit → Builder → List (Builder × MarkupUnit)
  | [], _ => []
  | u :: us, b => (b, u) :: takers us (b.onUnit u)

/-- The units that the builder takes on a run, in order, each with the builder that takes it. -/
def moments : Nat → Builder → List (Builder × MarkupUnit)
  | 0, _ => []
  | fuel + 1, b =>
    match b.lexer.pull with
    | (some t, x) =>
      takers (b.assembler.process t).output.toList (b.inFront x (b.assembler.process t)) ++
        moments fuel (b.take t x)
    | (none, x) => takers b.assembler.commit.output.toList (b.inFront x b.assembler.commit)

theorem takers_units (us : List MarkupUnit) (b : Builder) : (takers us b).map Prod.snd = us := by
  induction us generalizing b with
  | nil => rfl
  | cons u us ih => rw [takers, List.map_cons, ih]

theorem moments_units (fuel : Nat) (b : Builder) :
    (b.moments fuel).map Prod.snd = b.unitsTaken fuel := by
  induction fuel generalizing b with
  | zero => rfl
  | succ fuel ih =>
    rw [moments, unitsTaken]
    cases hpull : b.lexer.pull with
    | mk t x =>
      cases t with
      | none => exact takers_units _ _
      | some t =>
        dsimp only
        rw [List.map_append, takers_units, ih]

theorem follows_takers (us : List MarkupUnit) (b : Builder) :
    b.Follows (takers us b) (us.foldl Builder.onUnit b) := by
  induction us generalizing b with
  | nil => exact .nothing
  | cons u us ih => exact (Follows.nothing.unit u).trans (ih _)

/-- Units that are complete are taken one after the other. -/
theorem follows_drain (b : Builder) (x : Lexer) (a : Assembler) :
    b.Follows (takers a.output.toList (b.inFront x a)) { b with lexer := x, assembler := a }.drain := by
  rw [← takeUnits_all, takeUnits, List.take_of_length_le (by simp)]
  exact (Follows.nothing.read x _).trans (follows_takers _ _)

end Builder

/-- A run with enough steps takes units up to the end of the text. -/
theorem Runs.follows {cs : List Char} {l : Locator} {taken : List Token} {b : Builder} {fuel : Nat}
    (h : Runs cs l taken b) (hfuel : b.lexer.tokensLeft < fuel) :
    b.Follows (b.moments fuel) (Builder.run fuel b) := by
  induction fuel generalizing b taken with
  | zero => omega
  | succ fuel ih =>
    cases h.next with
    | @token t x hpull hx hloc hruns hlt hc =>
      rw [Builder.moments, hpull, Builder.run_token hpull]
      exact (b.follows_drain x _).trans (ih hruns (Nat.lt_of_lt_of_le hlt (Nat.lt_succ_iff.1 hfuel)))
    | @ended x hpull hx hloc hended =>
      rw [Builder.moments, hpull, Builder.run_atEnd hpull]
      exact b.follows_drain x _

namespace Builder

variable {b b' : Builder} {j : Nat} {ms : List (Builder × MarkupUnit)}

/-! ## Nodes that are closed -/

/-- The node of an index is there, and no open element or the root. -/
structure Shut (b : Builder) (j : Nat) : Prop where
  there : j < b.tree.size
  ne_root : j ≠ Tree.root
  not_mem : j ∉ b.opened

/-- The node stays closed, and as it is. -/
structure Shut.Stays (b : Builder) (j : Nat) (b' : Builder) : Prop where
  shut : b'.Shut j
  node : b'.tree.node? j = b.tree.node? j

theorem Shut.Stays.refl (h : b.Shut j) : Stays b j b := ⟨h, rfl⟩

theorem Shut.Stays.trans {b'' : Builder} (h : Stays b j b') (h' : Stays b' j b'') : Stays b j b'' :=
  ⟨h'.shut, h'.node.trans h.node⟩

theorem Shut.ne_tip (h : b.Shut j) {outer : List Nat}
    (ho : outer = b.opened ∨ ∃ id, b.opened = id :: outer) : j ≠ Tree.tip outer := by
  have hsub : ∀ i ∈ outer, i ∈ b.opened := by
    rcases ho with rfl | ⟨id, ho⟩
    · exact fun i hi => hi
    · exact fun i hi => ho ▸ List.mem_cons_of_mem id hi
  cases outer with
  | nil => exact h.ne_root
  | cons i outer => exact fun heq => h.not_mem (heq ▸ hsub i (List.mem_cons_self ..))

/-- A node that is added leaves all closed nodes as they are. -/
theorem Shut.addNode (h : b.Shut j) (content : NodeContent) (extent : Extent) :
    Stays b j (b.addNode content extent) where
  shut := ⟨(Nat.lt_succ_of_lt h.there).trans_eq (Tree.size_append ..).symm, h.ne_root, h.not_mem⟩
  node := Tree.node?_append_of_ne (Nat.ne_of_lt h.there) (h.ne_tip (.inl rfl)).symm

theorem Shut.onStartTag (h : b.Shut j) (tag : StartTag) : Stays b j (b.onStartTag tag) := by
  obtain ⟨e, outer, hadds, -⟩ := b.onStartTag_adds tag
  have hsize : (b.onStartTag tag).tree.size = b.tree.size + 1 := by
    rw [hadds.nodes.size, Tree.size_append]
  refine ⟨⟨by rw [hsize]; exact Nat.lt_succ_of_lt h.there, h.ne_root, ?_⟩,
    hadds.frame j h.there h.not_mem (h.ne_tip hadds.closes)⟩
  have houter : j ∉ outer := by
    rcases hadds.closes with rfl | ⟨id, ho⟩
    · exact h.not_mem
    · exact fun hj => h.not_mem (ho ▸ List.mem_cons_of_mem id hj)
  rw [hadds.opened]
  split
  · exact houter
  · exact fun hj => (List.mem_cons.1 hj).elim (Nat.ne_of_lt h.there) houter

theorem Shut.onEndTag (h : b.Shut j) (tag : EndTag) : Stays b j (b.onEndTag tag) := by
  by_cases hnone : ∀ i ∈ b.opened, b.closes tag.rawName i = false
  · rw [onEndTag_refuses hnone]
    exact ⟨⟨h.there, h.ne_root, h.not_mem⟩, rfl⟩
  · obtain ⟨inner, id, outer, ho, hid, hinner⟩ := exists_closes hnone
    have hends := onEndTag_ends ho hid hinner
    have hout := h.not_mem
    rw [ho, List.mem_append, List.mem_cons, not_or, not_or] at hout
    refine ⟨⟨?_, h.ne_root, hends.opened ▸ hout.2.2⟩, hends.frame j hout.1 hout.2.1⟩
    rw [hends.nodes.size, Tree.modifyElement, Tree.size_modify]
    exact h.there

/-- Whatever unit is taken, closed nodes stay as they are. -/
theorem Shut.onUnit (h : b.Shut j) (u : MarkupUnit) : Stays b j (b.onUnit u) := by
  obtain ⟨log, hunit⟩ := b.onUnit_withLog u
  have hlogged : (b.withLog log).Shut j := ⟨h.there, h.ne_root, h.not_mem⟩
  have hstays : Stays (b.withLog log) j (b.onUnit u) := by
    rw [hunit]
    cases u with
    | startTag tag => exact hlogged.onStartTag tag
    | endTag tag => exact hlogged.onEndTag tag
    | text run => exact hlogged.addNode _ _
    | mustache m =>
      obtain ⟨hshut, hnode⟩ := hlogged.addNode (.mustache ⟨none, #[], m.extent⟩) m.extent
      exact ⟨⟨hshut.there, hshut.ne_root, hshut.not_mem⟩, hnode⟩
  exact ⟨hstays.shut, hstays.node⟩

theorem Shut.follows (h : b.Shut j) (hf : b.Follows ms b') : Stays b j b' := by
  induction hf with
  | nothing => exact .refl h
  | unit hf u ih => exact ih.trans (ih.shut.onUnit u)
  | read hf x a ih => exact ⟨⟨ih.shut.there, ih.shut.ne_root, ih.shut.not_mem⟩, ih.node⟩

/-- At the end of the text the open elements and the root get their places. -/
theorem Shut.closeAll (h : b.Shut j) : b.closeAll.placeRoot.tree.node? j = b.tree.node? j := by
  have hclosed : b.closeAll.tree.node? j = b.tree.node? j :=
    closeInnermost_node? (by rw [List.take_length]; exact h.not_mem)
  exact (Tree.node?_modify_of_ne h.ne_root.symm).trans hclosed

end Builder

namespace Template

variable (text : String) (o : Options)

/-- The units of a template, each with the builder that takes it. -/
def moments : List (Builder × MarkupUnit) :=
  (startOf text o).moments (Outline.tokenBound (startOf text o).lexer)

theorem moments_units : (moments text o).map Prod.snd = unitsOf text o :=
  Builder.moments_units _ _

/-- The builder behind the last unit of a template. -/
def behindUnits : Builder := (startOf text o).run (Outline.tokenBound (startOf text o).lexer)

theorem follows_moments : (startOf text o).Follows (moments text o) (behindUnits text o) :=
  (runs_startOf text o).follows (Builder.tokensLeft_ofChars text.toList o.origin o.tracing)

theorem builderOf_eq_behindUnits : builderOf text o = (behindUnits text o).closeAll.placeRoot := rfl

end Template
end TemplateSyntax
