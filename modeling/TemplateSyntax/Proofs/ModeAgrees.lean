import TemplateSyntax.Proofs.CleanCut
import TemplateSyntax.Proofs.ContentMode

/-! # The lexer agrees with the open elements

Whenever the tree builder is about to take a unit, the lexer has been told what counts where it is: the
namespace of the innermost open element, and whether an open element turned interpolation off.  If it
reads text without tags, then that is the content of the innermost open element, whose end tag it is
looking for. -/

namespace TemplateSyntax

/-! ## The tags of an assembler -/

/-- A unit that is a tag starts with a token of a kind, a name and a place as `P` says. -/
def MarkupUnit.TagIs (P : TokenKind → String → Nat → Prop) : MarkupUnit → Prop
  | .startTag t => P .tagOpen t.rawName t.extent.span.start
  | .endTag t => P .endTagOpen t.rawName t.extent.span.start
  | .text _ | .mustache _ => True

namespace Assembler

variable {P : TokenKind → String → Nat → Prop} {a : Assembler} {t : Token} {u : OpenUnit}

/-- The tags of an assembler are as `P` says, those that are complete and the one that is not. -/
structure TagsAre (P : TokenKind → String → Nat → Prop) (a : Assembler) : Prop where
  current : ∀ u, a.current = some u → u.close.TagIs P
  output : ∀ u ∈ a.output, u.TagIs P

namespace TagsAre

theorem emit (h : a.TagsAre P) {u : MarkupUnit} (hu : u.TagIs P) : (a.emit u).TagsAre P where
  current := h.current
  output v hv := by
    rcases Array.mem_push.1 hv with hv | rfl
    · exact h.output v hv
    · exact hu

theorem setCurrent (h : a.TagsAre P) (hu : u.close.TagIs P) :
    ({ a with current := some u } : Assembler).TagsAre P :=
  { h with current := fun _ hv => Option.some.inj hv ▸ hu }

theorem emitCurrent (h : a.TagsAre P) : a.emitCurrent.TagsAre P := by
  unfold Assembler.emitCurrent
  split
  · next u hu =>
    have hnone : ({ a with current := none } : Assembler).TagsAre P := { h with current := nofun }
    exact hnone.emit (h.current u hu)
  · exact h

theorem flushInterpolation (h : a.TagsAre P) : a.flushInterpolation.TagsAre P := by
  unfold Assembler.flushInterpolation
  split
  · exact h
  · dsimp only
    have hrest : ({ a with opening := none, inside := #[] } : Assembler).TagsAre P := { h with }
    split
    · exact hrest.setCurrent (u := .text _) trivial
    · exact hrest.emitCurrent.setCurrent (u := .text _) trivial

theorem commit (h : a.TagsAre P) : a.commit.TagsAre P := { h.flushInterpolation.emitCurrent with }

theorem startTag (h : a.TagsAre P) (hu : u.close.TagIs P) : (a.startTag t u).TagsAre P := by
  have hkept : (a.keep t).TagsAre P := { h with }
  exact hkept.commit.setCurrent hu

theorem extend (h : u.close.TagIs P) (t : Token) : (u.extend t).close.TagIs P := by
  cases u <;> exact h

theorem tagPart (h : a.TagsAre P) : (a.tagPart t).TagsAre P := by
  unfold Assembler.tagPart
  split
  · next u hu =>
    split
    · have hgrown := h.setCurrent (extend (h.current u hu) t)
      exact { hgrown with }
    · exact { h with }
  · exact { h with }

theorem text (h : a.TagsAre P) : (a.text t).TagsAre P := by
  unfold Assembler.text
  split
  · exact { h with }
  · dsimp only
    split
    · split
      · exact h.setCurrent (u := .text _) trivial
      · exact h.commit.setCurrent (u := .text _) trivial
    · exact h.commit.setCurrent (u := .text _) trivial

theorem identifier (h : a.TagsAre P) : (a.identifier t).TagsAre P := by
  have hkept : (a.keep t).TagsAre P := { h with }
  unfold Assembler.identifier
  dsimp only
  split
  · next tag hc =>
    have hgrown := hkept.setCurrent (u := .startTag { tag with
      attributes := tag.attributes.push ⟨t, none, t.extent⟩
      extent := tag.extent.through t.extent }) (hkept.current (.startTag tag) hc)
    split
    · exact { hgrown with }
    · exact { hgrown with }
  · next tag hc =>
    have hgrown := hkept.setCurrent (extend (hkept.current (.endTag tag) hc) t)
    exact { hgrown with }
  · exact { h with }

theorem literal (h : a.TagsAre P) : (a.literal t).TagsAre P := by
  have hkept : (a.keep t).TagsAre P := { h with }
  unfold Assembler.literal
  dsimp only
  split
  · next tag hc =>
    have hgrown := hkept.setCurrent (u := .startTag { tag with
      attributes := if a.attributeOpen then giveValue tag.attributes t else tag.attributes
      extent := tag.extent.through t.extent }) (hkept.current (.startTag tag) hc)
    exact { hgrown with }
  · next tag hc =>
    have hgrown := hkept.setCurrent (extend (hkept.current (.endTag tag) hc) t)
    exact { hgrown with }
  · exact { h with }

theorem tagClose (h : a.TagsAre P) (selfClosing : Bool) : (a.tagClose t selfClosing).TagsAre P := by
  have hkept : (a.keep t).TagsAre P := { h with }
  unfold Assembler.tagClose
  dsimp only
  refine TagsAre.commit ?_
  split
  · next tag hc =>
    have hgrown := hkept.setCurrent (u := .startTag { tag with
      selfClosing, extent := tag.extent.through t.extent }) (hkept.current (.startTag tag) hc)
    exact { hgrown with }
  · next tag hc =>
    have hgrown := hkept.setCurrent (extend (hkept.current (.endTag tag) hc) t)
    split
    · exact { hgrown with }
    · exact { hgrown with }
  · exact { h with }

theorem interpolationStart (h : a.TagsAre P) : (a.interpolationStart t).TagsAre P := by
  have hkept : (a.keep t).TagsAre P := { h with }
  unfold Assembler.interpolationStart
  dsimp only
  split
  · exact hkept.text
  · have hfront : ∀ separated : Bool,
        (if separated then (a.keep t).commit else a.keep t).TagsAre P := by
      intro separated
      split
      · exact hkept.commit
      · exact hkept
    exact { hfront _ with }

theorem interpolationEnd (h : a.TagsAre P) : (a.interpolationEnd t).TagsAre P := by
  have hkept : (a.keep t).TagsAre P := { h with }
  unfold Assembler.interpolationEnd
  dsimp only
  split
  · exact hkept.text
  · next opening _ =>
    split
    · have hclosed : ({ a.keep t with opening := none } : Assembler).TagsAre P := { hkept with }
      exact hclosed.text.text
    · have hclosed : ({ a.keep t with opening := none, inside := #[] } : Assembler).TagsAre P :=
        { hkept with }
      exact hclosed.commit.emit (u := .mustache _) trivial

/-- A token keeps what holds of all tags, if it holds of the one that it may start. -/
theorem process (h : a.TagsAre P)
    (ht : t.kind = .tagOpen ∨ t.kind = .endTagOpen → P t.kind t.value t.extent.span.start) :
    (a.process t).TagsAre P := by
  have hkept : (a.keep t).TagsAre P := { h with }
  unfold Assembler.process
  split
  case h_3 hk =>
    have hp : P .tagOpen t.value t.extent.span.start := hk ▸ ht (.inl hk)
    exact h.startTag (u := .startTag _) hp
  case h_4 hk =>
    have hp : P .endTagOpen t.value t.extent.span.start := hk ▸ ht (.inr hk)
    exact h.startTag (u := .endTag _) hp
  case h_5 => exact h.identifier
  case h_6 => exact h.tagPart
  case h_7 => exact h.literal
  case h_8 | h_9 => exact h.tagClose _
  case h_10 => exact h.interpolationStart
  case h_11 => exact h.interpolationEnd
  case h_12 =>
    split
    · exact h.tagPart
    · exact hkept.text
  all_goals first | exact { h with } | exact hkept.text

end TagsAre
end Assembler

/-! ## The innermost open element -/

/-- The namespace and the names of an element. -/
def Element.called (e : Element) : Namespace × String × String := (e.ns, e.rawName, e.name)

/-- A new node changes what no element is called. -/
theorem Tree.called_append {t : Tree} {id : Nat} (p : Nat) (content : NodeContent) (extent : Extent)
    (h : id ≠ t.size) : ((t.append p content extent).element? id).map Element.called =
      (t.element? id).map Element.called := by
  have hjoin : ∀ t : Tree, (t.element? id).map Element.called =
      ((t.node? id).map fun n => n.element?.map Element.called).join := by
    intro t
    rw [element?]
    cases t.node? id <;> rfl
  rw [hjoin, hjoin, node?_append h, map_node?_modify]
  intro n _
  obtain ⟨c, parent, extent⟩ := n
  cases c <;> rfl

theorem Lexer.Told.content {x y : Lexer} (h : x.Told y) : y.content = x.content := by
  obtain ⟨ns, interpolating, log, rfl⟩ := h
  rfl

theorem Lexer.content_of_isTextState {x : Lexer} (h : IsTextState x.state) :
    x.content = x.state := by
  rcases h with h | h <;> rw [content, h] <;> rfl

namespace Builder

variable {b b' : Builder} {e : Element} {cs : List Char} {l : Locator} {taken ts : List Token}
  {t : Token} {x : Lexer} {us : List MarkupUnit}

/-- The lexer is in the content of the innermost open element, which is text without tags. -/
structure InText (b : Builder) (e : Element) : Prop where
  current : b.currentElement? = some e
  ns : e.ns = .html
  name : e.name = e.rawName.toLower
  content : ElementClass.contentState? e.rawName.toLower = some b.lexer.content
  tokens : b.lexer.buffer.Inside e.rawName.toLower

/-- Text without tags is that of the innermost open element. -/
def ReadsText (b : Builder) : Prop := b.lexer.content ≠ .data → ∃ e, b.InText e

theorem ReadsText.of_content (h : b.lexer.content = .data) : b.ReadsText := fun hne => absurd h hne

/-- A new node does not count. -/
theorem InText.addNode (h : b.InText e) (hthere : ∀ id ∈ b.opened, id < b.tree.size)
    (content : NodeContent) (extent : Extent) : ∃ e', (b.addNode content extent).InText e' := by
  obtain ⟨id, hid, he⟩ := Option.bind_eq_some_iff.1 h.current
  have hcalled := Tree.called_append (t := b.tree) b.current content extent
    (Nat.ne_of_lt (hthere id (List.mem_of_head? hid)))
  rw [he] at hcalled
  obtain ⟨e', he', heq⟩ := Option.map_eq_some_iff.1 hcalled
  obtain ⟨hns, hraw, hname⟩ : e'.ns = e.ns ∧ e'.rawName = e.rawName ∧ e'.name = e.name := by
    simpa [Element.called] using heq
  refine ⟨e', Option.bind_eq_some_iff.2 ⟨id, hid, he'⟩, hns.trans h.ns, ?_, ?_, ?_⟩
  · rw [hname, hraw, h.name]
  · rw [hraw]
    exact h.content
  · rw [hraw]
    exact h.tokens

/-- Behind a start tag the lexer is in the content of the new element, or in content with tags. -/
theorem onStartTag_readsText {tag : StartTag} (hc : b.lexer.content = .data)
    (hi : b.lexer.buffer.Inside tag.rawName.toLower) : (b.onStartTag tag).ReadsText := by
  have htold : ∀ {y : Lexer}, b.lexer.Told y → y.content = .data := fun hy => hy.content.trans hc
  unfold Builder.onStartTag
  dsimp only
  have himplied := closeImplied_told (.refl b.lexer) tag.rawName.toLower
  generalize b.closeImplied tag.rawName.toLower = b₀ at himplied
  generalize hns : ElementClass.namespaceOf b₀.currentElement? tag.rawName.toLower tag = ns
  have hchecked := checkNamespaces_told himplied ns (tag.attributes.map (plainAttribute ns))
  generalize b₀.checkNamespaces ns (tag.attributes.map (plainAttribute ns)) = b₁ at hchecked
  generalize hnew : Element.mk _ _ _ _ _ _ _ _ _ = e
  have hadded : b.lexer.Told (b₁.addNode (.element e) tag.extent).lexer := hchecked
  have hthere : (b₁.addNode (.element e) tag.extent).tree.element? b₁.tree.size = some e :=
    Tree.element?_eq (Tree.node?_append_self b₁.tree b₁.current (.element e) tag.extent)
  generalize b₁.addNode (.element e) tag.extent = b₂ at hadded hthere
  obtain ⟨-, htree, -⟩ := scheduleDirectives_stays b₂ b₁.tree.size (ns.elementName tag.rawName)
    (tag.attributes.map (plainAttribute ns))
  have hscheduled := scheduleDirectives_told hadded b₁.tree.size (ns.elementName tag.rawName)
    (tag.attributes.map (plainAttribute ns))
  generalize b₂.scheduleDirectives _ _ _ = b₃ at htree hscheduled
  split
  · exact .of_content (htold (closeElement_told hscheduled _))
  · have hlexer : b.lexer.Told { b₃.lexer with ns } := hscheduled.trans ⟨_, _, _, rfl⟩
    split
    · next hhtml =>
      split
      · next s hs =>
        have hstate := ElementClass.isTextState_of_contentState? hs
        obtain rfl : ns = .html := by simpa using hhtml
        intro _
        rw [← hnew] at hthere
        refine ⟨_, (htree ▸ hthere : b₃.tree.element? b₁.tree.size = _), rfl, rfl, ?_, ?_⟩
        · show ElementClass.contentState? tag.rawName.toLower = some (Lexer.content _)
          rw [hs, Lexer.content_of_isTextState (by rw [Lexer.enter_eq]; exact hstate), Lexer.enter_eq]
        · show TokenBuffer.Inside _ (Lexer.enter _ s).buffer
          rw [Lexer.enter_eq]
          exact hlexer.unmoved.buffer ▸ hi
      · exact .of_content (htold hlexer)
    · exact .of_content (htold hlexer)

/-- A unit that is taken leaves the lexer in the content of the innermost open element. -/
theorem ReadsText.onUnit (h : b.ReadsText) (hthere : ∀ id ∈ b.opened, id < b.tree.size)
    {u : MarkupUnit} (hu : b.lexer.content ≠ .data → u.TagIs fun _ _ _ => False)
    (hs : ∀ tag, u = .startTag tag → b.lexer.content = .data ∧
      b.lexer.buffer.Inside tag.rawName.toLower) : (b.onUnit u).ReadsText := by
  have hlogged : (if b.lexer.tracing then b.logged (.pulled b.opened.length u.extent.span)
      else b).lexer.content = b.lexer.content ∧
      (if b.lexer.tracing then b.logged (.pulled b.opened.length u.extent.span)
      else b).lexer.buffer = b.lexer.buffer ∧
      (∀ id ∈ (if b.lexer.tracing then b.logged (.pulled b.opened.length u.extent.span)
      else b).opened, id < (if b.lexer.tracing then b.logged (.pulled b.opened.length u.extent.span)
      else b).tree.size) ∧ (if b.lexer.tracing then b.logged (.pulled b.opened.length u.extent.span)
      else b).ReadsText := by
    split
    · refine ⟨rfl, rfl, hthere, fun hne => ?_⟩
      obtain ⟨e, he⟩ := h hne
      exact ⟨e, { he with }⟩
    · exact ⟨rfl, rfl, hthere, h⟩
  unfold Builder.onUnit
  dsimp only
  generalize (if b.lexer.tracing then b.logged (.pulled b.opened.length u.extent.span) else b) =
    b₀ at hlogged
  obtain ⟨hcontent, hbuffer, hthere₀, h₀⟩ := hlogged
  cases u with
  | startTag tag =>
    obtain ⟨hc, hi⟩ := hs tag rfl
    exact onStartTag_readsText (hcontent.trans hc) (hbuffer ▸ hi)
  | endTag tag =>
    -- content with tags, as there is one
    have hc : b.lexer.content = .data := by
      by_contra hne
      exact hu hne
    exact .of_content ((onEndTag_told (.refl b₀.lexer) tag).content.trans (hcontent.trans hc))
  | text run =>
    intro hne
    obtain ⟨e, he⟩ := h₀ hne
    exact he.addNode hthere₀ _ _
  | mustache m =>
    intro hne
    obtain ⟨e, he⟩ := h₀ hne
    obtain ⟨e', he'⟩ := he.addNode hthere₀ (.mustache ⟨none, #[], m.extent⟩) m.extent
    exact ⟨e', { he' with }⟩

/-! ## Units in a row -/

/-- Units that are complete fit what the lexer is in: there are no tags in text without tags, and a
start tag stands alone, with its name on record. -/
structure Fits (b : Builder) (us : List MarkupUnit) : Prop where
  text : b.lexer.content ≠ .data → ∀ u ∈ us, u.TagIs fun _ _ _ => False
  start : ∀ tag, .startTag tag ∈ us → us = [.startTag tag] ∧ b.lexer.content = .data ∧
    b.lexer.buffer.Inside tag.rawName.toLower

theorem Fits.take (h : b.Fits us) (k : Nat) : b.Fits (us.take k) where
  text hne u hu := h.text hne u (List.mem_of_mem_take hu)
  start tag htag := by
    obtain ⟨rfl, hc, hi⟩ := h.start tag (List.mem_of_mem_take htag)
    refine ⟨?_, hc, hi⟩
    cases k with
    | zero => simp at htag
    | succ k => exact List.take_of_length_le (by simp)

/-- Units in a row that fit are taken, and what the lexer is told is right in front of each. -/
theorem ReadsText.onUnits (h : b.ReadsText) (hsteers : b.Steers) (hfits : b.Fits us) :
    (us.foldl Builder.onUnit b).ReadsText ∧ (us.foldl Builder.onUnit b).Steers := by
  induction us generalizing b with
  | nil => exact ⟨h, hsteers⟩
  | cons u us ih =>
    have hone := h.onUnit hsteers.there (u := u) (fun hne => hfits.text hne u (List.mem_cons_self ..))
      fun tag htag => (hfits.start tag (htag ▸ List.mem_cons_self ..)).2
    refine ih hone (hsteers.onUnit u) ?_
    by_cases hstart : ∃ tag, u = .startTag tag
    · -- nothing comes behind it
      obtain ⟨tag, rfl⟩ := hstart
      obtain ⟨-, rfl⟩ := List.cons.inj (hfits.start tag (List.mem_cons_self ..)).1
      exact ⟨fun _ _ hu => absurd hu List.not_mem_nil, fun _ hu => absurd hu List.not_mem_nil⟩
    · obtain ⟨ns, interpolating, log, htold⟩ :=
        (onUnit_steered (.refl b.lexer) u).2 fun tag htag => hstart ⟨tag, htag⟩
      refine ⟨fun hne v hv => ?_, fun tag htag => ?_⟩
      · rw [htold] at hne
        exact hfits.text hne v (List.mem_cons_of_mem u hv)
      · have hall := (hfits.start tag (List.mem_cons_of_mem u htag)).1
        obtain ⟨rfl, -⟩ := List.cons.inj hall
        exact absurd rfl fun heq => hstart ⟨tag, heq⟩

/-- What holds between two tokens, behind the tokens `taken`. -/
structure KeepsMode (taken : List Token) (b : Builder) : Prop where
  steers : b.Steers
  returns : b.lexer.Returns
  names : b.lexer.buffer.Names taken
  tags : b.assembler.TagsAre fun k name _ => k = .tagOpen → name.toLower = lastOpened taken
  text : b.ReadsText
  noTags : b.lexer.content ≠ .data → b.assembler.TagsAre fun _ _ _ => False

/-- The builder with the units of `a` ahead, and the lexer `x`. -/
def inFront (b : Builder) (x : Lexer) (a : Assembler) : Builder :=
  { b with lexer := x, assembler := { a with output := #[] } }

variable {a : Assembler} {o : Option Token}

/-- A pull keeps what holds in front of a unit. -/
theorem KeepsMode.inFront (h : b.KeepsMode taken) (hpull : b.lexer.pull = (o, x)) (a : Assembler) :
    (b.inFront x a).ReadsText ∧ (b.inFront x a).Steers := by
  have hpulls := Lexer.pull_pulls h.returns
  have htold := b.lexer.pull_told
  rw [hpull] at hpulls htold
  have hns : x.ns = b.lexer.ns := congrArg (fun y => y.2.1) htold
  have hinterpolating : x.interpolating = b.lexer.interpolating := congrArg (fun y => y.2.2) htold
  refine ⟨fun hne => ?_, h.steers.there, hns.trans h.steers.ns, h.steers.off.mem,
    hinterpolating.trans h.steers.off.told⟩
  have hcontent : x.content = b.lexer.content := hpulls.content.resolve_right hne
  obtain ⟨e, he⟩ := h.text (hcontent ▸ hne)
  refine ⟨e, { he with content := ?_, tokens := ?_ }⟩
  · rw [he.content]
    exact congrArg some hcontent.symm
  · exact (hpulls.inside _ hne he.tokens).1

/-- In text without tags, a token is character data. -/
theorem KeepsMode.noTags_process (h : b.KeepsMode taken) (hpull : b.lexer.pull = (some t, x))
    (hne : x.content ≠ .data) : (b.assembler.process t).TagsAre fun _ _ _ => False := by
  have hpulls := Lexer.pull_pulls h.returns
  rw [hpull] at hpulls
  have hcontent : b.lexer.content ≠ .data := hpulls.content.resolve_right hne ▸ hne
  obtain ⟨e, he⟩ := h.text hcontent
  have ht := (hpulls.inside _ hne he.tokens).2 t rfl
  refine (h.noTags hcontent).process fun hk => ?_
  rcases hk with hk | hk <;> rw [hk] at ht <;> exact absurd ht (by decide)

/-- A token that starts no tag keeps the name of the last start tag. -/
theorem KeepsMode.tags_process (h : b.KeepsMode taken) (hk : t.kind ≠ .tagOpen) :
    lastOpened (taken ++ [t]) = lastOpened taken ∧ (b.assembler.process t).TagsAre fun k name _ =>
      k = .tagOpen → name.toLower = lastOpened taken := by
  refine ⟨?_, h.tags.process fun _ heq => absurd heq hk⟩
  rw [lastOpened_snoc, Token.nameBehind, if_neg hk]

/-- The units that a token completes fit what the lexer is in. -/
theorem KeepsMode.fits_process (h : b.KeepsMode taken) (hr : Runs cs l taken b)
    (hpull : b.lexer.pull = (some t, x)) :
    (b.inFront x (b.assembler.process t)).Fits (b.assembler.process t).output.toList := by
  refine ⟨fun hne u hu => (h.noTags_process hpull hne).output u (Array.mem_toList_iff.1 hu),
    fun tag htag => ?_⟩
  cases hr.next with
  | ended hpull' _ _ _ => exact absurd (hpull.symm.trans hpull') (by simp)
  | token hpull' hx hloc hruns hlt hc =>
    obtain ⟨ht, rfl⟩ := Prod.mk.inj (hpull.symm.trans hpull')
    obtain rfl := Option.some.inj ht
    obtain ⟨_, _, _, _, -, -, -, hunits, -⟩ := hr.process hx hloc
    have hk := hunits.closed tag htag
    obtain ⟨hready, hfinished, hbehind, -⟩ := hc hk
    obtain ⟨u, hunit, -⟩ := hr.process_idle hx hloc hk
    obtain ⟨hlast, htags⟩ := h.tags_process (t := t) (by rintro heq; rw [heq] at hk; cases hk)
    rw [hunit] at htag ⊢
    obtain rfl := List.mem_singleton.1 htag
    have hcontent : x.content = .data := by rw [Lexer.content, hbehind.state]; rfl
    refine ⟨rfl, hcontent, ?_⟩
    obtain ⟨-, hbuilds⟩ := hbehind.builds hx hfinished
    have hnames := Lexer.pull_pulls h.returns
    rw [hpull] at hnames
    refine ⟨.of_empty hbehind.idle hbuilds.notHeld hready, ?_⟩
    refine ((hnames.names taken h.names).trans ?_).trans
      (htags.output (.startTag tag) (by rw [hunit]; exact Array.mem_singleton.2 rfl) rfl).symm
    rw [hready, List.append_nil]
    exact hlast

/-- A start tag that the end of the text completes is the one that was open. -/
theorem commit_startTag (hr : Runs cs l taken b) {tag : StartTag}
    (htag : .startTag tag ∈ b.assembler.commit.output) :
    b.assembler.current = some (.startTag tag) ∧ b.assembler.commit.output = #[.startTag tag] := by
  obtain ⟨floor, m, p, -, hasm, -⟩ := hr.stands
  obtain ⟨u, hu, hopening⟩ : ∃ u, b.assembler.current = some u ∧ b.assembler.opening = none := by
    by_contra hno
    have hnone : b.assembler.TagsAre fun _ _ _ => False := by
      refine ⟨fun u hu => ?_, by rw [hr.output]; simp⟩
      have htext : ∀ {lo hi}, TextIn lo b.assembler.current hi → u.close.TagIs fun _ _ _ => False := by
        intro lo hi hin
        obtain ⟨run, rfl, -⟩ := hin.run u hu
        trivial
      cases m with
      | content =>
        obtain ⟨_, -, hin⟩ := InContent.outputs hasm
        exact htext hin
      | tag => exact absurd ⟨u, hu, InTag.opening hasm⟩ hno
      | interpolation =>
        obtain ⟨_, _, _, -, -, -, -, hin, -⟩ := InMustache.braces hasm
        exact htext hin
    exact hnone.commit.output _ htag
  have hcommit : b.assembler.commit.output = #[u.close] := by
    rw [Assembler.commit_of_opening hopening, Assembler.emitCurrent, hu]
    show b.assembler.output.push u.close = #[u.close]
    rw [hr.output]
    rfl
  rw [hcommit] at htag ⊢
  have hclose : u.close = .startTag tag := (Array.mem_singleton.1 htag).symm
  refine ⟨?_, by rw [hclose]⟩
  cases u with
  | startTag tag' =>
    obtain rfl := MarkupUnit.startTag.inj hclose
    exact hu
  | endTag _ | text _ => cases hclose

/-- So do those that the end of the text completes. -/
theorem KeepsMode.fits_commit (h : b.KeepsMode taken) (hr : Runs cs l taken b)
    (hpull : b.lexer.pull = (none, x)) :
    (b.inFront x b.assembler.commit).Fits b.assembler.commit.output.toList := by
  have hpulls := Lexer.pull_pulls h.returns
  rw [hpull] at hpulls
  have hcontent : x.content ≠ .data → b.lexer.content ≠ .data := fun hne =>
    hpulls.content.resolve_right hne ▸ hne
  refine ⟨fun hne u hu => (h.noTags (hcontent hne)).commit.output u (Array.mem_toList_iff.1 hu),
    fun tag htag => ?_⟩
  obtain ⟨hu, hcommit⟩ := commit_startTag hr (Array.mem_toList_iff.1 htag)
  have hdata : b.lexer.content = .data := by
    by_contra hne
    exact (h.noTags hne).current _ hu
  refine ⟨by rw [hcommit], hpulls.content.elim (fun heq => heq.trans hdata) id, ?_⟩
  obtain ⟨floor, m, p, -, -, hstands⟩ := hr.stands
  have hhanded := hstands.built.tracks.pull
  rw [hpull] at hhanded
  cases hhanded with
  | ended hx hfinished hready =>
    have hrests := hx.ended hfinished
    refine ⟨.of_empty hrests.idle hrests.notHeld hready, ?_⟩
    have hname := h.tags.current _ hu
    refine ((hpulls.names taken h.names).trans ?_).trans (hname rfl).symm
    show lastOpened ((taken ++ []) ++ x.buffer.ready) = lastOpened taken
    rw [hready, List.append_nil, List.append_nil]

/-- Units that are taken leave the assembler as it is, and the tokens of the lexer. -/
theorem onUnits_leave (b : Builder) (us : List MarkupUnit) :
    (us.foldl Builder.onUnit b).assembler = b.assembler ∧
      (us.foldl Builder.onUnit b).lexer.buffer = b.lexer.buffer ∧
      (b.lexer.Returns → (us.foldl Builder.onUnit b).lexer.Returns) ∧
      ((∀ tag, .startTag tag ∉ us) → (us.foldl Builder.onUnit b).lexer.content = b.lexer.content) := by
  induction us generalizing b with
  | nil => exact ⟨rfl, rfl, id, fun _ => rfl⟩
  | cons u us ih =>
    obtain ⟨hasm, hbuffer, hreturns, hcontent⟩ := ih (b.onUnit u)
    obtain ⟨hsteered, htold⟩ := onUnit_steered (.refl b.lexer) u
    have hone : (b.onUnit u).lexer.buffer = b.lexer.buffer ∧
        (b.lexer.Returns → (b.onUnit u).lexer.Returns) := by
      generalize (b.onUnit u).lexer = y at hsteered
      cases hsteered with
      | told hy =>
        obtain ⟨ns, interpolating, log, rfl⟩ := hy
        exact ⟨rfl, fun hr => ⟨hr.back, hr.outer⟩⟩
      | entered hy hs =>
        obtain ⟨ns, interpolating, log, rfl⟩ := hy
        rw [Lexer.enter_eq]
        exact ⟨rfl, fun hr => ⟨hr.back, hr.outer⟩⟩
    refine ⟨hasm.trans (onUnit_assembler b u), hbuffer.trans hone.1, hreturns ∘ hone.2,
      fun hno => ?_⟩
    refine (hcontent fun tag htag => hno tag (List.mem_cons_of_mem u htag)).trans
      (htold ?_).content
    rintro tag rfl
    exact hno tag (List.mem_cons_self ..)

/-- The units that the token completes, `count` of them at most, are taken. -/
def takeUnits (b : Builder) (x : Lexer) (a : Assembler) (count : Nat) : Builder :=
  (a.output.toList.take count).foldl Builder.onUnit (b.inFront x a)

/-- In the end all of them are. -/
theorem takeUnits_all (b : Builder) (x : Lexer) (a : Assembler) :
    b.takeUnits x a a.output.size = { b with lexer := x, assembler := a }.drain := by
  have hall : a.output.toList.take a.output.size = a.output.toList :=
    List.take_of_length_le (by simp)
  simp only [Builder.drain, Assembler.takeOutput, takeUnits, hall, ← Array.foldl_toList, inFront]

/-- A token that is taken keeps the mode of the lexer. -/
theorem KeepsMode.take (h : b.KeepsMode taken) (hr : Runs cs l taken b)
    (hpull : b.lexer.pull = (some t, x)) : (b.take t x).KeepsMode (taken ++ [t]) := by
  obtain ⟨htext, hsteers⟩ := h.inFront hpull (b.assembler.process t)
  have hfits := h.fits_process hr hpull
  obtain ⟨htext', hsteers'⟩ := htext.onUnits hsteers hfits
  obtain ⟨hasm, hbuffer, hreturns, hcontent⟩ :=
    onUnits_leave (b.inFront x (b.assembler.process t)) (b.assembler.process t).output.toList
  have hpulls := Lexer.pull_pulls h.returns
  rw [hpull] at hpulls
  have hnames := hpulls.names taken h.names
  have htake : b.take t x = (b.assembler.process t).output.toList.foldl Builder.onUnit
      (b.inFront x (b.assembler.process t)) := by
    simp only [Builder.take, Builder.drain, Assembler.takeOutput, ← Array.foldl_toList,
      Builder.inFront]
  rw [htake]
  refine ⟨hsteers', hreturns hpulls.returns, ?_, ?_, htext', fun hne => ?_⟩
  · rw [hbuffer]
    exact hnames
  · rw [hasm]
    refine ⟨fun u hu => ?_, fun u hu => absurd hu (Array.not_mem_empty u)⟩
    by_cases hk : t.kind = .tagOpen
    · have hprocess : (b.assembler.process t).current =
          some (.startTag ⟨t.value, false, #[], t.extent⟩) := by
        unfold Assembler.process
        rw [hk]
        rfl
      obtain rfl := Option.some.inj (hprocess.symm.trans hu)
      rintro -
      rw [lastOpened_snoc, Token.nameBehind, if_pos hk]
    · obtain ⟨hlast, htags⟩ := h.tags_process hk
      rw [hlast]
      exact htags.current u hu
  · rw [hasm]
    by_cases hdata : x.content = .data
    · -- the lexer went into the text behind a start tag, and nothing is left of that
      have hstart : ∃ tag, .startTag tag ∈ (b.assembler.process t).output.toList := by
        by_contra hno
        exact hne ((hcontent fun tag htag => hno ⟨tag, htag⟩).trans hdata)
      obtain ⟨tag, htag⟩ := hstart
      cases hr.next with
      | ended hpull' _ _ _ => exact absurd (hpull.symm.trans hpull') (by simp)
      | token hpull' hx hloc hruns hlt hc =>
        obtain ⟨ht, rfl⟩ := Prod.mk.inj (hpull.symm.trans hpull')
        obtain rfl := Option.some.inj ht
        obtain ⟨_, _, _, _, -, -, -, hunits, -⟩ := hr.process hx hloc
        obtain ⟨_, -, hidle⟩ := hr.process_idle hx hloc (hunits.closed tag htag)
        exact ⟨fun u hu => absurd (hu.symm.trans hidle.current) (Option.some_ne_none u),
          fun u hu => absurd hu (Array.not_mem_empty u)⟩
    · exact { h.noTags_process hpull hdata with
        output := fun u hu => absurd hu (Array.not_mem_empty u) }

theorem keepsMode_ofChars (cs : List Char) (locator : Locator) (tracing : Bool) :
    (ofChars cs locator tracing).KeepsMode [] where
  steers := steers_ofChars cs locator tracing
  returns := Lexer.returns_ofChars cs locator tracing
  names := rfl
  tags := ⟨by simp [ofChars], by simp [ofChars]⟩
  text := .of_content rfl
  noTags hne := absurd rfl hne

theorem Takes.keepsMode (h : Takes b ts b') (hr : Runs cs l taken b) (hb : b.KeepsMode taken) :
    b'.KeepsMode (taken ++ ts) := by
  induction h with
  | nothing => rwa [List.append_nil]
  | token h hpull ih =>
    rw [← List.append_assoc]
    exact ih.take (h.runs hr) hpull

/-! ## In front of a unit -/

/-- The lexer knows where the tree builder is.  What it reads without tags is the content of the
innermost open element, and the end tag that it looks for is the one that closes that element. -/
structure ModeAgrees (b : Builder) : Prop where
  ns : b.lexer.ns = b.currentNamespace
  interpolating : b.lexer.interpolating = false ↔ ∃ id ∈ b.opened, b.verbatim = some id
  verbatim : ∀ id, b.verbatim = some id → id ∈ b.opened
  text : ∀ s, b.lexer.state = s → s = .rawText ∨ s = .rcdata →
    ∃ id e, b.opened.head? = some id ∧ b.tree.element? id = some e ∧ e.ns = .html ∧
      ElementClass.contentState? e.rawName.toLower = some s ∧
      b.lexer.buffer.lastStartTagName = e.rawName.toLower ∧
      ∀ name, { b.lexer with endTagName := name }.isAppropriateEndTag = b.closes name id

theorem ReadsText.agrees (h : b.ReadsText) (hs : b.Steers) : b.ModeAgrees where
  ns := hs.ns
  interpolating := by
    rw [hs.off.told]
    constructor
    · intro hoff
      obtain ⟨id, hid⟩ := Option.isSome_iff_exists.1 (by simpa using hoff)
      exact ⟨id, hs.off.mem id hid, hid⟩
    · rintro ⟨id, -, hid⟩
      rw [hid]
      rfl
  verbatim := hs.off.mem
  text s hstate htext := by
    have hcontent : b.lexer.content = s := hstate ▸
      Lexer.content_of_isTextState (by rw [hstate]; exact htext.symm)
    obtain ⟨e, he⟩ := h (by rw [hcontent]; rcases htext with rfl | rfl <;> decide)
    obtain ⟨id, hid, hthere⟩ := Option.bind_eq_some_iff.1 he.current
    have hname : e.rawName.toLower ≠ "" := by
      intro hempty
      have hs := he.content
      rw [hempty] at hs
      exact absurd hs (by rw [show ElementClass.contentState? "" = none from by decide]; nofun)
    refine ⟨id, e, hid, hthere, he.ns, hcontent ▸ he.content, he.tokens.last, fun name => ?_⟩
    show (b.lexer.buffer.lastStartTagName != "" &&
      Text.sameLetters name b.lexer.buffer.lastStartTagName) = _
    rw [he.tokens.last, Builder.closes, hthere]
    show _ = Text.sameLetters e.name name
    rw [he.name, bne_iff_ne.2 hname, Bool.true_and, Text.sameLetters, Text.sameLetters, Bool.beq_comm]

/-- Units that fit are taken one by one. -/
theorem KeepsMode.takeUnits (h : b.KeepsMode taken) (hpull : b.lexer.pull = (o, x))
    (hfits : (b.inFront x a).Fits a.output.toList) (count : Nat) :
    (b.takeUnits x a count).ReadsText ∧ (b.takeUnits x a count).Steers := by
  obtain ⟨htext, hsteers⟩ := h.inFront hpull a
  exact htext.onUnits hsteers (hfits.take count)

/-- The builder behind the next token, if there is one. -/
def next (b : Builder) : Builder :=
  match b.lexer.pull with
  | (some t, x) => b.take t x
  | (none, _) => b

theorem Takes.next (h : Takes b ts b') : ∃ ts', Takes b ts' b'.next := by
  unfold Builder.next
  split
  · next t x hpull => exact ⟨_, h.token hpull⟩
  · exact ⟨_, h⟩

end Builder

namespace Template

variable {text : String} {o : Options} {b : Builder}

/-- The builders of a template that are about to take a unit: in front of all units, and behind any
number of those that a token or the end of the text completes. -/
inductive Pulling (text : String) (o : Options) : Builder → Prop
  | between {ts : List Token} {b : Builder} (h : (startOf text o).Takes ts b) : Pulling text o b
  | token {ts : List Token} {b : Builder} {t : Token} {x : Lexer} (h : (startOf text o).Takes ts b)
      (hpull : b.lexer.pull = (some t, x)) (count : Nat) :
      Pulling text o (b.takeUnits x (b.assembler.process t) count)
  | ended {ts : List Token} {b : Builder} {x : Lexer} (h : (startOf text o).Takes ts b)
      (hpull : b.lexer.pull = (none, x)) (count : Nat) :
      Pulling text o (b.takeUnits x b.assembler.commit count)

/-- Whenever the tree builder is about to take a unit, it steers the lexer. -/
theorem Pulling.steers (h : Pulling text o b) : b.ReadsText ∧ b.Steers := by
  have hkeeps : ∀ {ts b}, (startOf text o).Takes ts b →
      b.KeepsMode ts ∧ Runs text.toList (locatorOf text o) ts b := fun htakes =>
    ⟨htakes.keepsMode (runs_startOf text o) (Builder.keepsMode_ofChars _ _ _),
      htakes.runs (runs_startOf text o)⟩
  cases h with
  | between h => exact ⟨(hkeeps h).1.text, (hkeeps h).1.steers⟩
  | token h hpull count =>
    obtain ⟨hmode, hruns⟩ := hkeeps h
    exact hmode.takeUnits hpull (hmode.fits_process hruns hpull) count
  | ended h hpull count =>
    obtain ⟨hmode, hruns⟩ := hkeeps h
    exact hmode.takeUnits hpull (hmode.fits_commit hruns hpull) count

/-- Whenever the tree builder is about to take a unit, the mode of the lexer agrees with the elements
that are open. -/
theorem Pulling.modeAgrees (h : Pulling text o b) : b.ModeAgrees :=
  h.steers.1.agrees h.steers.2

/-- Behind the start tag of a title, the lexer reads the content of the title. -/
theorem Pulling.modeAgrees_title : (startOf "<title>" {}).next.next.lexer.state = .rcdata ∧
    (startOf "<title>" {}).next.next.ModeAgrees := by
  obtain ⟨_, htakes⟩ := (Builder.Takes.nothing (b := startOf "<title>" {})).next
  obtain ⟨_, htakes⟩ := htakes.next
  exact ⟨by decide +kernel, Pulling.modeAgrees (.between htakes)⟩

end Template
end TemplateSyntax
