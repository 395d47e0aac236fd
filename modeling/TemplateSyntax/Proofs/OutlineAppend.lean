import TemplateSyntax.Proofs.AppendPlaces
import TemplateSyntax.Proofs.CleanCut
import TemplateSyntax.Proofs.OriginMove
import TemplateSyntax.Proofs.ReportPlaces
import TemplateSyntax.Proofs.SpotsInside
import TemplateSyntax.Proofs.TakesMove
import TemplateSyntax.Proofs.TokensApart

/-! # The outline of a text that goes on

Where a text ends with a tag that leaves no element open, what follows is read as a text of its own: the
outline of both texts is that of the first one with that of the second one behind it. -/

namespace TemplateSyntax

open Text (byteLength)

namespace Template

variable (front back : String) (o : Options)

/-- A node that stays where it is has no nodes in front of it. -/
theorem node_in_front (id : Nat) (_ : id ≠ Tree.root) : id = 0 + id := (Nat.zero_add id).symm

/-- The text `front`, with `back` behind it. -/
def inFront : Relocation where
  offset x := x
  node id := id
  position x _ := (locatorOf (front ++ back) o).position x
  offset_lt := Iff.rfl
  source := locatorOf front o
  locator := locatorOf (front ++ back) o
  index := 0
  tail := back.toList
  nodes := 0
  gaps := #[]
  diagnostics := #[]
  host_eq i := congrArg _ (Nat.zero_add i)
  position_eq _ _ := rfl
  node_root := rfl
  node_eq := node_in_front

/-- Where the text `back` goes behind the text `front`, which has left `nodes` nodes under the root. -/
def behind (nodes : Nat) : Move where
  offset x := byteLength front.toList + x
  node id := if id = Tree.root then Tree.root else nodes + id
  position x _ := (locatorOf (front ++ back) o).position (byteLength front.toList + x)
  offset_lt := Nat.add_lt_add_iff_left

/-- The text `back`, behind `front` with what that has left. -/
def goingOn (nodes : Nat) (gaps : Array Nat) (diagnostics : Array Diagnostic) : Relocation :=
  { behind front back o nodes with
    source := locatorOf back o
    locator := locatorOf (front ++ back) o
    index := byteLength front.toList
    tail := []
    nodes := nodes
    gaps := gaps
    diagnostics := diagnostics
    host_eq := fun _ => Nat.add_left_comm ..
    position_eq := fun _ _ => rfl
    node_root := (if_pos rfl : (if Tree.root = Tree.root then Tree.root else nodes + Tree.root) = _)
    node_eq := fun _ hid => if_neg hid }

end Template

/-- The builder `t` has what `a` has, and behind it what `b` has, as `m` and `m'` move them. -/
structure Builder.Joined (m m' : Move) (a b t : Builder) : Prop where
  tree : Tree.Joins m m' a.tree b.tree t.tree
  directives : t.directives = a.directives.map m.place ++ b.directives.map m'.place
  mustaches : t.mustaches = a.mustaches.map m.pendingMustache ++ b.mustaches.map m'.pendingMustache
  tokens : t.assembler.tokens = a.assembler.tokens.map m.token ++ b.assembler.tokens.map m'.token
  comments : t.assembler.comments =
    a.assembler.comments.map m.token ++ b.assembler.comments.map m'.token
  gaps : t.lexer.gaps = a.lexer.gaps.map m.offset ++ b.lexer.gaps.map m'.offset
  found : t.lexer.diagnostics =
    a.lexer.diagnostics.map m.diagnostic ++ b.lexer.diagnostics.map m'.diagnostic
  raised : t.assembler.diagnostics =
    a.assembler.diagnostics.map m.diagnostic ++ b.assembler.diagnostics.map m'.diagnostic
  reported : t.diagnostics = a.diagnostics.map m.diagnostic ++ b.diagnostics.map m'.diagnostic

theorem Builder.Clean.getLast? {cs : List Char} {b : Builder} (h : b.Clean cs) :
    cs.getLast? = some '>' := by
  obtain ⟨hsize, post, pre, rfl, hpre⟩ := h.last
  have hpost : post = [] := by
    simp only [Text.byteLength_append, hpre] at hsize
    exact Text.byteLength_eq_zero.1 (by omega)
  rw [hpost, List.append_nil, List.getLast?_concat]

namespace Template

variable {front : String} {o : Options}

/-- Behind the first text, the builder is as it is in front of the second one. -/
theorem EndsClosed.moved (h : EndsClosed front o) (back : String) :
    ∃ ts c c' seen seen', (startOf front o).Takes ts c ∧ c.Clean front.toList ∧
      c.Moved (inFront front back o) seen (startOf (front ++ back) o) c' ∧
      (builderOf back o).Moved (goingOn front back o (c'.tree.size - 1) c'.lexer.gaps
        c'.lexer.diagnostics) seen' c' (builderOf (front ++ back) o) := by
  obtain ⟨ts, t, c, htakes, -, -, hclean⟩ := h.exists_clean
  have hlast : front.toList.getLast? = some '>' := hclean.getLast?
  have hstart : (startOf front o).Moved (inFront front back o) (Seen [])
      (startOf (front ++ back) o) (startOf (front ++ back) o) := by
    have hfresh : (startOf (front ++ back) o).Fresh (front.toList ++ back.toList) 0 := by
      rw [← String.toList_append]
      exact Builder.fresh_ofChars _ _ _
    exact hfresh.moved (.inr hlast) o.tracing ⟨rfl, rfl⟩ rfl rfl rfl ⟨#[], _, rfl⟩
  have hspent : ¬ c.lexer.Spent := fun hs =>
    absurd (hs.2.symm.trans hclean.char) (Option.some_ne_none _).symm
  obtain ⟨c', htakes', hmoved⟩ := hstart.takes (runs_startOf front o) htakes hspent
  -- the second text, read from there and by itself
  have hback : (startOf back o).Moved (goingOn front back o (c'.tree.size - 1) c'.lexer.gaps
      c'.lexer.diagnostics) (Seen []) c' c' := by
    have hfresh := hclean.toFresh.relocated hmoved
    obtain ⟨children, extent, extent', -, htop⟩ := hmoved.tree.top
    have hpos := Tree.lt_size htop
    refine Builder.Fresh.moved ?_ (.inl rfl) o.tracing
      ⟨hmoved.target, hmoved.lexer.target⟩ rfl rfl
      (Nat.sub_add_cancel hpos).symm ⟨_, _, htop⟩
    rw [show (inFront front back o).index + byteLength front.toList = byteLength front.toList from
      Nat.zero_add _] at hfresh
    simpa [goingOn, inFront] using hfresh
  have hruns := htakes'.runs (runs_startOf (front ++ back) o)
  obtain ⟨fuel, hfuel, hrun⟩ := htakes'.run (runs_startOf (front ++ back) o)
    (Builder.tokensLeft_ofChars (front ++ back).toList o.origin o.tracing)
  have hbound := Builder.tokensLeft_ofChars back.toList o.origin o.tracing
  obtain ⟨taken, -, hrest⟩ := hback.run (runs_startOf back o) rfl
    (Nat.lt_of_lt_of_le hbound (Nat.le_add_right _ fuel))
  refine ⟨ts ++ [t], c, c', _, Seen taken, htakes, hclean, hmoved, ?_⟩
  rw [hruns.run_le hfuel (Nat.le_add_left _ _), ← hrun,
    (runs_startOf back o).run_le hbound (Nat.le_add_right _ _)] at hrest
  exact hrest.closeAll.placeRoot

/-- The outline of both texts has what the outline of each one has. -/
theorem EndsClosed.joined (h : EndsClosed front o) (back : String) :
    (builderOf front o).Joined (inFront front back o).toMove
      (behind front back o ((builderOf front o).tree.size - 1)) (builderOf back o)
      (builderOf (front ++ back) o) := by
  obtain ⟨ts, c, c', seen, seen', htakes, hclean, hmoved, hback⟩ := h.moved back
  obtain ⟨x, -, hgaps, hdiagnostics, hfront⟩ := builderOf_clean htakes hclean
  obtain ⟨children, extent, extent', htop, htop'⟩ := hmoved.tree.top
  rw [show (startOf (front ++ back) o).tree.children Tree.root = #[] from
    Tree.children_ofRoot _ _, Array.empty_append] at htop'
  have htree : (builderOf front o).tree = ({ c with lexer := x } : Builder).placeRoot.tree :=
    congrArg Builder.tree hfront
  have hsize : (builderOf front o).tree.size = c.tree.size := by
    rw [htree]
    exact Tree.size_modify ..
  have hsize' : c'.tree.size = c.tree.size := hmoved.tree.size.trans (Nat.zero_add _)
  have hnode : ∀ id, id ≠ Tree.root → (builderOf front o).tree.node? id = c.tree.node? id := by
    intro id hid
    rw [htree]
    exact Tree.node?_modify_of_ne hid.symm
  obtain ⟨children₀, e, hroot⟩ := builderOf_root front o
  obtain rfl : children₀ = children := by
    have hsame : ∀ (e : Extent) (n : Node), ({ n with extent := e } : Node).children = n.children :=
      fun e n => rfl
    have hchildren : (builderOf front o).tree.children Tree.root = c.tree.children Tree.root := by
      rw [htree]
      exact Tree.children_modify (hsame _) ..
    exact ((Tree.children_eq hroot).symm.trans hchildren).trans (Tree.children_eq htop)
  have hpos := Tree.lt_size hroot
  have hpart : (builderOf front o).tree.Part (inFront front back o).toMove c'.tree :=
    ⟨fun _ _ => id, fun id hid _ => by rw [hnode id hid]; exact hmoved.tree.node id hid⟩
  rw [hsize', ← hsize] at hback
  have hassembler : (builderOf front o).assembler = c.assembler := by
    rw [hfront]
    rfl
  have hlexer : (builderOf front o).lexer = x := by
    rw [hfront]
    rfl
  have hreports : (builderOf front o).directives = c.directives ∧
      (builderOf front o).mustaches = c.mustaches ∧
      (builderOf front o).diagnostics = c.diagnostics := by
    rw [hfront]
    exact ⟨rfl, rfl, rfl⟩
  refine ⟨?_, ?_, ?_, ?_, ?_, ?_, ?_, ?_, ?_⟩
  · refine hback.tree.joins (fun _ => rfl) (Nat.sub_add_cancel hpos) hpart hroot ?_
    rw [Tree.children_eq htop']
    exact Array.map_id' _
  · rw [hback.directives, hmoved.directives, hreports.1]
    exact congrArg (· ++ _) (Array.empty_append ..)
  · rw [hback.mustaches, hmoved.mustaches, hreports.2.1]
    exact congrArg (· ++ _) (Array.empty_append ..)
  · rw [hback.assembler.tokens, hmoved.assembler.tokens, hassembler]
    exact congrArg (· ++ _) (Array.empty_append ..)
  · rw [hback.assembler.comments, hmoved.assembler.comments, hassembler]
    exact congrArg (· ++ _) (Array.empty_append ..)
  · have hfirst : c'.lexer.gaps = c.lexer.gaps.map (inFront front back o).offset :=
      hmoved.lexer.gaps.trans (Array.empty_append ..)
    rw [hlexer, hgaps, ← hfirst]
    exact hback.lexer.gaps
  · have hfirst : c'.lexer.diagnostics =
        c.lexer.diagnostics.map (inFront front back o).diagnostic :=
      hmoved.lexer.diagnostics.trans (Array.empty_append ..)
    rw [hlexer, hdiagnostics, ← hfirst]
    exact hback.lexer.diagnostics
  · rw [hback.assembler.diagnostics, hmoved.assembler.diagnostics, hassembler]
    exact congrArg (· ++ _) (Array.empty_append ..)
  · rw [hback.diagnostics, hmoved.diagnostics, hreports.2.2]
    exact congrArg (· ++ _) (Array.empty_append ..)

end Template

/-! ## What stands in front of the end -/

section
variable {cs : List Char} {l : Locator} {taken ts : List Token} {b b' : Builder}

/-- Tokens that are taken cover text. -/
theorem Builder.Takes.apart (h : b.Takes ts b') (hr : Runs cs l taken b) (hb : Apart taken b) :
    Apart (taken ++ ts) b' := by
  induction h with
  | nothing => rwa [List.append_nil]
  | @token ts c t x h hpull ih =>
    have hruns := h.runs hr
    obtain ⟨floor, m, p, -, -, hstands⟩ := hruns.stands
    have hcovers := hstands.built.tracks.pull_coversText ih.lexer
    rw [hpull] at hcovers
    cases hruns.next with
    | ended hpull' _ _ _ => exact absurd (hpull.symm.trans hpull') (by simp)
    | token hpull' hx hloc _ _ hc =>
      obtain ⟨ht, rfl⟩ := Prod.mk.inj (hpull.symm.trans hpull')
      obtain rfl := Option.some.inj ht
      rw [← List.append_assoc]
      exact hruns.take_apart hx hloc (fun hk => (hc hk).2.2.1.atContent (hc hk).1) ih
        (hcovers.1 _ rfl) hcovers.2

end

namespace Template

variable {front : String} {o : Options}

/-- The tokens of the text start in front of its end, and those that do not close a tag end there, too. -/
theorem EndsClosed.tokens (h : EndsClosed front o) :
    ∃ ts c, (startOf front o).Takes ts c ∧ c.Clean front.toList ∧
      Whole front.toList (locatorOf front o) ts (builderOf front o) ∧
      ∀ t ∈ ts, t.extent.span.start < (locatorOf front o).host (byteLength front.toList) ∧
        (t.kind.closesTag = false →
          t.extent.span.stop < (locatorOf front o).host (byteLength front.toList)) := by
  obtain ⟨ts, t, c, htakes, hk, hstop, hclean⟩ := h.exists_clean
  obtain ⟨x, hpull, -, -, hfront⟩ := builderOf_clean htakes hclean
  have hruns := htakes.runs (runs_startOf front o)
  refine ⟨ts ++ [t], c, htakes, hclean, ?_, ?_⟩
  · cases hruns.next with
    | token hpull' _ _ _ _ _ => exact absurd (hpull.symm.trans hpull') (by simp)
    | ended hpull' _ _ hended =>
      obtain ⟨-, rfl⟩ := Prod.mk.inj (hpull.symm.trans hpull')
      rw [hfront, ← hclean.atEnd x]
      exact hended.finish
  · have hcovers := (htakes.apart (runs_startOf front o)
      ⟨by simp, Lexer.coversText_start _ _ _, rfl, rfl⟩).covers
    obtain ⟨floor, m, p, hstream, -, -⟩ := hruns.stands
    have horder := hstream.inOrder
    rw [List.nil_append] at hcovers
    rw [List.nil_append, List.map_append, List.map_singleton, InOrder.snoc_iff] at horder
    have hlast : t.extent.span.start < (locatorOf front o).host (byteLength front.toList) :=
      hstop ▸ hcovers t (by simp)
    intro y hy
    rcases List.mem_append.1 hy with hy | hy
    · obtain ⟨-, hle, hstart⟩ := horder.1.of_mem (List.mem_map_of_mem hy)
      exact ⟨by omega, fun _ => by omega⟩
    · obtain rfl := List.mem_singleton.1 hy
      exact ⟨hlast, fun hk' => absurd (hk.symm.trans hk') (by decide)⟩

/-- What is found while the outline is made stands in front of the end. -/
theorem EndsClosed.found_lt (h : EndsClosed front o) {d : Diagnostic}
    (hd : d ∈ (outlineOf front o).diagnostics) :
    d.offset < (locatorOf front o).host (byteLength front.toList) := by
  obtain ⟨ts, c, htakes, hclean, -, htokens⟩ := h.tokens
  obtain ⟨x, -, -, hdiagnostics, hfront⟩ := builderOf_clean htakes hclean
  obtain ⟨floor, m, p, -, -, hstands⟩ := (htakes.runs (runs_startOf front o)).stands
  have hmarked := htakes.marked (P := (· < (locatorOf front o).host (byteLength front.toList)))
    (Builder.allMarked_ofChars _ _ _) fun t ht => (htokens t ht).1
  have hplaced : (outlineOf front o).diagnostics =
      x.diagnostics ++ c.assembler.diagnostics ++ c.diagnostics := by
    rw [outlineOf_eq, hfront]
    rfl
  rw [hplaced, hdiagnostics, Array.mem_append, Array.mem_append] at hd
  rcases hd with (hd | hd) | hd
  · have hle := hclean.reports d hd
    have hlast := hclean.last.1
    rw [hstands.built.locator.2] at hle
    simp only [Locator.host, Text.byteLength_cons, Text.byteLength_nil] at hle hlast ⊢
    have hsize : '>'.utf8Size = 1 := rfl
    omega
  · exact hmarked.assembler.diagnostics d hd
  · exact hmarked.builder d hd

/-- The name of an attribute and its value end in front of the end. -/
theorem EndsClosed.attribute_lt (h : EndsClosed front o) {id : Nat} {e : Element}
    {a : PlainAttribute} (he : (outlineOf front o).tree.element? id = some e)
    (ha : .plain a ∈ e.attributes) :
    a.key.extent.span.stop < (locatorOf front o).host (byteLength front.toList) ∧
      ∀ v, a.value = some v →
        v.extent.span.stop < (locatorOf front o).host (byteLength front.toList) := by
  obtain ⟨ts, c, -, -, hwhole, htokens⟩ := h.tokens
  obtain ⟨ns, y, hy, hfrom⟩ := hwhole.attributes id e (outlineOf_tree front o ▸ he) _ ha
  obtain rfl := Attribute.plain.inj hy
  obtain ⟨hkey, hkeyKind⟩ := hfrom.key
  refine ⟨(htokens _ hkey).2 (by rw [hkeyKind]; rfl), fun v hv => ?_⟩
  obtain ⟨t, ht, rfl⟩ := Option.map_eq_some_iff.1 hv
  obtain ⟨hvalue, hvalueKind⟩ := hfrom.value t ht
  exact (htokens _ hvalue).2 (by rw [hvalueKind]; rfl)

/-- So does all embedded text. -/
theorem EndsClosed.embeds_lt (h : EndsClosed front o) {id : Nat} {extent : Extent}
    {code : List Char} {lo hi : Nat} (he : Embeds front o id extent code lo hi) :
    hi < byteLength front.toList := by
  cases he with
  | @value _ e a v t _ _ he ha hv ht hcontent hcode =>
    have hlt := (h.attribute_lt he ha).2 v hv
    rw [← ht] at hlt
    cases hcontent with
    | quoted _ hspan _ _ _ _ =>
      rw [hspan] at hlt
      simp only [Locator.host] at hlt
      omega
    | unclosed _ hspan _ _ _ =>
      rw [hspan] at hlt
      exact absurd hlt (Nat.lt_irrefl _)
    | bare hspan _ _ =>
      rw [hspan] at hlt
      simp only [Locator.host] at hlt
      omega
  | argument _ _ _ _ _ _ hclose => exact Nat.lt_of_succ_le hclose.le_size
  | mustache _ _ hcontent _ =>
    obtain ⟨j, hclosing⟩ := hcontent.closing
    have hle := hclosing.le_size
    have hsize : j = hi + 2 := hclosing.1
    omega

end Template
end TemplateSyntax
