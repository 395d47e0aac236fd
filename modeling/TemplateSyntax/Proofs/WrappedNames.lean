import TemplateSyntax.Proofs.FragmentPlaces
import TemplateSyntax.Proofs.WrappedScripts

/-! # Names in wrapped texts

The parts of a script that are kept of a wrapping stand between two brackets of the wrapping, so that their
identifiers are words of the text in it.  Moved to the host file, a name is at the place of a word that
spells it. -/

namespace TemplateSyntax

open Script
open Text (Between From byteLength)

/-! ## Words between two places -/

namespace Text

variable {cs front code back tail mid : List Char} {i j k : Nat} {c : Char}

/-- What stands inside of a piece stands in the piece. -/
theorem Between.of_append (h : Between (front ++ code ++ back) i mid j) (hlo : byteLength front ≤ i)
    (hhi : j ≤ byteLength front + byteLength code) :
    Between code (i - byteLength front) mid (j - byteLength front) := by
  obtain ⟨rfl, post, hfrom⟩ := h
  have hcode : From (front ++ code ++ back) (byteLength front) (code ++ back) :=
    ⟨front, List.append_assoc .., rfl⟩
  have hback : From (front ++ code ++ back) (byteLength front + byteLength code) back := hcode.append
  obtain ⟨pre, hpre, hsize⟩ := hcode.split hfrom hlo
  obtain ⟨rest, hrest, -⟩ := hfrom.append.split hback hhi
  have heq : code ++ back = pre ++ (mid ++ rest) ++ back := by
    rw [hpre, hrest]
    simp only [List.append_assoc]
  exact ⟨by omega, rest, pre, List.append_cancel_right heq, hsize⟩

/-- A character that stands in a piece is one of the piece. -/
theorem Between.mem (h : Between cs i mid j) (hc : From cs k (c :: tail)) (hik : i ≤ k) (hkj : k < j) :
    c ∈ mid := by
  obtain ⟨rfl, post, hfrom⟩ := h
  obtain ⟨pre, hpre, hsize⟩ := hfrom.split hc hik
  rcases List.append_eq_append_iff.1 hpre with ⟨rest, rfl, -⟩ | ⟨rest, rfl, hrest⟩
  · rw [byteLength_append] at hsize
    omega
  · cases rest with
    | nil =>
      rw [List.append_nil] at hkj
      omega
    | cons d rest =>
      obtain ⟨rfl, -⟩ := List.cons.inj hrest
      simp

/-- The last of the same characters of a text is where the others of the text are not behind it. -/
theorem From.le_of_not_mem (h : From (front ++ c :: tail) k (c :: mid)) (hc : c ∉ tail) :
    k ≤ byteLength front := by
  by_contra hlt
  have hlast : From (front ++ c :: tail) (byteLength front) (c :: tail) := ⟨front, rfl, rfl⟩
  obtain ⟨pre, hpre, hsize⟩ := hlast.split h (by omega)
  cases pre with
  | nil =>
    rw [byteLength_nil] at hsize
    omega
  | cons d pre =>
    obtain ⟨-, rfl⟩ := List.cons.inj hpre
    exact hc (by simp)

end Text

/-! ## Names of a fragment -/

/-- The span is that of a word of the text that spells the name. -/
def Fragment.Names (f : Fragment) (name : String) (s : Span) : Prop :=
  ∃ i j raw, i < j ∧ s = f.map.span i j ∧ Between f.code i raw j ∧ Spelled raw name.toList

/-- A name of a part is a name of the fragment. -/
theorem Fragment.Names.ofPart {f g : Fragment} {name : String} {s : Span} (hg : g.PartOf f)
    (h : g.Names name s) : f.Names name s := by
  obtain ⟨i, j, raw, hlt, rfl, hin, hspelled⟩ := h
  obtain ⟨start, hplace, hmap⟩ := hg.place
  have hoffset : ∀ k, g.map.offset k = f.map.offset (start + k) := by
    intro k
    rw [hmap]
    exact OffsetMap.offset_shift _ (by omega)
  refine ⟨start + i, start + j, raw, by omega, ?_, hplace.inside hin, hspelled⟩
  rw [OffsetMap.span, OffsetMap.span, hoffset, hoffset]

/-- The identifiers of what has host offsets are names of the fragment. -/
def Fragment.Spells {α : Type} [HasIdents α] (f : Fragment) (a : α) : Prop :=
  HasIdents.all (fun id => f.Names id.name id.span) a

/-- The bracket that ends a wrapping is its last character. -/
theorem Wrapping.charAt_last {w : Wrapping} {c : Char} (hafter : w.after = ['\n', c])
    (hc : c.utf8Size = 1) (code : List Char) :
    CharAt (w.wrap code) (byteLength (w.wrap code) - 1) c := by
  have hwrap : w.wrap code = w.before ++ code ++ ['\n'] ++ [c] := by
    rw [Wrapping.wrap, hafter, List.append_assoc _ ['\n']]
    rfl
  refine ⟨[], _, hwrap, ?_⟩
  rw [hwrap, Text.byteLength_append _ [c], Text.byteLength_cons, hc]
  rfl

namespace Wrapped

variable {w : Wrapped}

/-- A word of the text in a wrapping is a name of the fragment. -/
theorem names_of_named {q : Nat} {id : Ident}
    (h : Stretch.Named ⟨w.wrapping.wrap w.fragment.code, w.lo, q⟩ id) (hstop : id.span.stop ≤ w.hi) :
    w.fragment.Names id.name (id.span.map w.host) := by
  have hlt := h.start_lt_stop
  obtain ⟨hlo, -, raw, hne, hin, hspelled⟩ := h
  have hlo : w.lo ≤ id.span.start := hlo
  have hhost : ∀ k, w.lo ≤ k → k ≤ w.hi → min (max k w.lo) w.hi - w.lo = k - w.lo := by omega
  refine ⟨id.span.start - w.lo, id.span.stop - w.lo, raw, by omega, ?_, hin.of_append hlo hstop, hspelled⟩
  rw [Span.map, host_eq, host_eq, hhost _ hlo (by omega), hhost _ (by omega) hstop]
  rfl

/-- A word does not go over a line break. -/
theorem stop_le_of_break {k : Nat} {tail : List Char} {t : Stretch} {id : Ident} (h : t.Named id)
    (hbreak : From t.text k ('\n' :: tail)) (hstop : id.span.stop ≤ k + 1) : id.span.stop ≤ k := by
  obtain ⟨-, -, raw, hne, hin, hspelled⟩ := h
  have hsize : byteLength raw ≠ 0 := fun h0 => hne (Text.byteLength_eq_zero.1 h0)
  have hraw := hin.1
  by_contra hlt
  have hmem := hin.mem hbreak (by omega) (by omega)
  exact absurd (hspelled.isWordChar _ hmem) (by decide)

/-- A word in front of the bracket that ends a wrapping is one of the text. -/
theorem stop_le_hi {close : Char} {q : Nat} {tail : List Char} {id : Ident}
    (h : Stretch.Named ⟨w.wrapping.wrap w.fragment.code, w.lo, q⟩ id)
    (hq : CharAt (w.wrapping.wrap w.fragment.code) q close) (hclose : close ∉ tail)
    (hafter : w.wrapping.after = close :: tail ∨ w.wrapping.after = '\n' :: close :: tail) :
    id.span.stop ≤ w.hi := by
  obtain ⟨mid, hfrom⟩ := hq
  have hstop : id.span.stop ≤ q := h.hi
  have hhi : byteLength (w.wrapping.before ++ w.fragment.code) = w.hi := Text.byteLength_append ..
  unfold Wrapping.wrap at hfrom
  rcases hafter with hafter | hafter
  · rw [hafter] at hfrom
    exact Nat.le_trans hstop (hhi ▸ hfrom.le_of_not_mem hclose)
  · have hbreak : From (w.wrapping.wrap w.fragment.code) w.hi ('\n' :: close :: tail) :=
      ⟨_, by rw [Wrapping.wrap, hafter], hhi⟩
    rw [hafter, List.append_cons] at hfrom
    have hle := hfrom.le_of_not_mem hclose
    rw [Text.byteLength_append, hhi] at hle
    exact stop_le_of_break h hbreak (Nat.le_trans hstop hle)

end Wrapped

/-! ## What is read of a fragment -/

namespace Fragment

open Wrapping

variable {f g : Fragment} {e : Expr}

/-- An expression that was read of a part is made of names of the fragment. -/
theorem readOne_spells (hreader : g.reader.Faithful) (hg : g.PartOf f) (he : g.readOne = .ok e) :
    f.Spells e := by
  obtain ⟨span, callSpan, number, inner, types, hread, rfl⟩ := readOne_ok he
  refine (ownCall_of_read hreader hread).inside.expr_map fun id hid => ?_
  exact (Wrapped.names_of_named hid (Wrapped.stop_le_hi (w := ⟨g, .expression⟩) hid
    (Wrapping.charAt_last rfl rfl _) List.not_mem_nil (.inr rfl))).ofPart hg

/-- So are the statements of the function that a wrapping makes. -/
theorem statements_spell {body : List Stmt} (h : OwnFunction f.reader f.lang f.code body) :
    f.Spells (mapStmts (Wrapped.mk f .statements).host body) := by
  refine stmtsAll_iff.1 (h.inside.stmts_map fun id hid => ?_)
  exact Wrapped.names_of_named hid (Wrapped.stop_le_hi (w := ⟨f, .statements⟩) hid
    (Wrapping.charAt_last rfl rfl _) List.not_mem_nil (.inr rfl))

/-- So are patterns that stand up to the bracket that ends a wrapping. -/
theorem pats_spell {w : Wrapping} {pats : List Pat} {close : Char} {tail : List Char}
    (hg : g.PartOf f) (h : StandUpTo (w.wrap g.code) pats (byteLength w.before) close)
    (hclose : close ∉ tail)
    (hafter : w.after = close :: tail ∨ w.after = '\n' :: close :: tail) :
    f.Spells (mapPats (Wrapped.mk g w).host pats) := by
  obtain ⟨q, hstand, hq⟩ := h
  refine patsAll_iff.1 (patsStand_all_map hstand fun id hid => ?_)
  exact (Wrapped.names_of_named hid
    (Wrapped.stop_le_hi (w := ⟨g, w⟩) hid hq hclose hafter)).ofPart hg

end Fragment

end TemplateSyntax
