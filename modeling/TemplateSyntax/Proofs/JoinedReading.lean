import TemplateSyntax.Proofs.ParseStages
import TemplateSyntax.Proofs.ResolveMove

/-! # Reading what is embedded in joined trees

Where a tree has the nodes of two others, the directives and mustaches of one of them are read without a
change to the nodes of the other.  So it comes to the same whether the two trees are joined before their
embedded texts are read, or behind that. -/

namespace TemplateSyntax

open Template (Progress)

variable {m m' : Move} {a b t : Tree} {p q p' q' : Progress}

namespace Tree.Joins

/-- What is read of the front part. -/
theorem along_front (h : Joins m m' p.tree b q.tree) (hp : Progress.Along m p q p' q') :
    Joins m m' p'.tree b q'.tree where
  keeps := h.keeps
  node_root := h.node_root
  behind id hid := by rw [hp.sizes.1, h.behind id hid]
  size := by rw [hp.sizes.1, hp.sizes.2, h.size]
  front := hp.part
  back := h.back.congr fun id hid _ => hp.others _ fun j _ hlt heq => by
    have hle := h.size_le hid
    rw [h.keeps] at heq
    omega
  top := by
    have hroot : q'.tree.node? root = q.tree.node? root := hp.others root fun j hj _ heq =>
      hj ((h.keeps j).symm.trans heq)
    rw [hp.root, hroot]
    exact h.top

/-- What is read of the back part. -/
theorem along_back (h : Joins m m' a p.tree q.tree) (hp : Progress.Along m' p q p' q') :
    Joins m m' a p'.tree q'.tree where
  keeps := h.keeps
  node_root := h.node_root
  behind := h.behind
  size := by rw [hp.sizes.1, hp.sizes.2, h.size]
  front := h.front.congr fun id _ hlt => hp.others _ fun j hj _ heq => by
    have hle := h.size_le hj
    rw [h.keeps] at heq
    omega
  back := hp.part
  top := by
    have hroot : q'.tree.node? root = q.tree.node? root := hp.others root fun j hj _ heq =>
      hj (h.back.inj j root (heq.trans h.node_root.symm))
    rw [hp.root, hroot]
    exact h.top

end Tree.Joins

/-- A tree behind which others were added has its own nodes in front. -/
theorem Tree.Moved.joins {r : Relocation} {before : Tree} (h : b.Moved r before t)
    (hkeeps : ∀ id, m.node id = id) (hsize : r.nodes + 1 = a.size) (ha : a.Part m before)
    {children : Array Nat} {e : Extent} (htop : a.node? Tree.root = some ⟨.root children, none, e⟩)
    (hbefore : before.children Tree.root = children) : Tree.Joins m r.toMove a b t where
  keeps := hkeeps
  node_root := r.node_root
  behind id hid := by
    rw [r.node_eq id hid, ← hsize]
    omega
  size := by
    rw [h.size, ← hsize]
    omega
  front := ha.congr fun id hid hlt => by
    rw [hkeeps]
    exact h.front id hid (by omega)
  back := ⟨fun i j => r.node_inj.1, fun id hid _ => h.node id hid⟩
  top := by
    obtain ⟨children', extent, extent', hroot, hroot'⟩ := h.top
    rw [hbefore] at hroot'
    exact ⟨children, children', e, extent, extent', htop, hroot, hroot'⟩

namespace Template.Progress

/-- A tree with its directives and mustaches read. -/
def read (r : Reading) (t : Tree) (ds : List (Nat × Nat)) (ys : List PendingMustache) : Progress :=
  ys.foldl (readMustache r) (ds.foldl (readDirective r) { tree := t })

/-- What the reading of a part of a template needs for the texts to be mapped to where they are in the
whole. -/
structure MapsPart (m : Move) (r r' : Reading) (t : Tree) (ds : List (Nat × Nat))
    (ys : List PendingMustache) : Prop where
  follows : r.Follows m r'
  attributes : t.PlainOnly (MapsAttribute m r r')
  texts : ∀ y ∈ ys, r.Maps m r' y.value.toList y.start
  directives : ∀ d ∈ ds, d.1 ≠ Tree.root ∧ d.1 < t.size
  mustaches : ∀ y ∈ ys, y.node ≠ Tree.root ∧ y.node < t.size

variable {ra rb r : Reading} {da db : List (Nat × Nat)} {ya yb : List PendingMustache}

/-- The joined tree is read as its parts are: first the directives of both, then the mustaches. -/
theorem read_joins (h : Tree.Joins m m' a b t) (ha : MapsPart m ra r a da ya)
    (hb : MapsPart m' rb r b db yb) :
    let whole := read r t (da.map m.place ++ db.map m'.place)
      (ya.map m.pendingMustache ++ yb.map m'.pendingMustache)
    Tree.Joins m m' (read ra a da ya).tree (read rb b db yb).tree whole.tree ∧
      ∃ la la' lb lb', (read ra a da ya).log = la ++ la' ∧ (read rb b db yb).log = lb ++ lb' ∧
        whole.log = la.map m.logEntry ++ lb.map m'.logEntry ++ la'.map m.logEntry ++
          lb'.map m'.logEntry := by
  unfold read
  rw [List.foldl_append, List.foldl_append]
  generalize hp : ({ tree := a } : Progress) = p
  generalize hp' : ({ tree := b } : Progress) = p'
  generalize hq : ({ tree := t } : Progress) = q
  have hlogs : p.log = #[] ∧ p'.log = #[] ∧ q.log = #[] := ⟨hp ▸ rfl, hp' ▸ rfl, hq ▸ rfl⟩
  have h₀ : Tree.Joins m m' p.tree p'.tree q.tree := by
    rw [← hp, ← hp', ← hq]
    exact h
  have htree : p.tree = a := hp ▸ rfl
  have htree' : p'.tree = b := hp' ▸ rfl
  have a₁ := readDirectives_along h₀.front ha.follows (by rw [htree]; exact ha.directives)
    (by rw [htree]; exact ha.attributes)
  have h₁ := h₀.along_front a₁
  have b₁ := readDirectives_along h₁.back hb.follows (by rw [htree']; exact hb.directives)
    (by rw [htree']; exact hb.attributes)
  have h₂ := h₁.along_back b₁
  have a₂ := readMustaches_along h₂.front ha.follows
    (by rw [a₁.sizes.1, htree]; exact ha.mustaches) ha.texts
  have h₃ := h₂.along_front a₂
  have b₂ := readMustaches_along h₃.back hb.follows
    (by rw [b₁.sizes.1, htree']; exact hb.mustaches) hb.texts
  refine ⟨h₃.along_back b₂, ?_⟩
  obtain ⟨la, hla, hqa⟩ := a₁.log
  obtain ⟨lb, hlb, hqb⟩ := b₁.log
  obtain ⟨la', hla', hqa'⟩ := a₂.log
  obtain ⟨lb', hlb', hqb'⟩ := b₂.log
  refine ⟨la, la', lb, lb', ?_, ?_, ?_⟩
  · rw [hla', hla, hlogs.1, Array.empty_append]
  · rw [hlb', hlb, hlogs.2.1, Array.empty_append]
  · rw [hqb', hqa', hqb, hqa, hlogs.2.2, Array.empty_append]

/-- Reading leaves the root as it is. -/
theorem read_root {t : Tree} {ds : List (Nat × Nat)} {ys : List PendingMustache}
    (hds : ∀ d ∈ ds, d.1 ≠ Tree.root) (hys : ∀ y ∈ ys, y.node ≠ Tree.root) (r : Reading) :
    (read r t ds ys).tree.node? Tree.root = t.node? Tree.root := by
  have hdirective : ∀ (p : Progress) (d : Nat × Nat), d.1 ≠ Tree.root →
      (p.readDirective r d).tree.node? Tree.root = p.tree.node? Tree.root := by
    intro p d hd
    unfold readDirective
    dsimp only
    split
    · exact Tree.node?_modify_of_ne hd
    · rfl
  have hmustache : ∀ (p : Progress) (y : PendingMustache), y.node ≠ Tree.root →
      (p.readMustache r y).tree.node? Tree.root = p.tree.node? Tree.root := by
    intro p y hy
    unfold readMustache
    split
    · rfl
    · exact Tree.node?_modify_of_ne hy
  have hdirectives : ∀ p : Progress, (ds.foldl (readDirective r) p).tree.node? Tree.root =
      p.tree.node? Tree.root := by
    induction ds with
    | nil => exact fun _ => rfl
    | cons d ds ih =>
      intro p
      rw [List.foldl_cons, ih fun d' hd' => hds d' (List.mem_cons_of_mem d hd')]
      exact hdirective p d (hds d (List.mem_cons_self ..))
  have hmustaches : ∀ p : Progress, (ys.foldl (readMustache r) p).tree.node? Tree.root =
      p.tree.node? Tree.root := by
    induction ys with
    | nil => exact fun _ => rfl
    | cons y ys ih =>
      intro p
      rw [List.foldl_cons, ih fun y' hy' => hys y' (List.mem_cons_of_mem y hy')]
      exact hmustache p y (hys y (List.mem_cons_self ..))
  rw [read, hmustaches, hdirectives]

end Template.Progress

namespace Template

/-- The embedded texts of a template are read from the outline. -/
theorem progressOf_eq (text : String) (o : Options) {reader : Script.Reader} :
    progressOf text o reader = Progress.read (readingOf text o reader) (builderOf text o).tree
      (builderOf text o).directives.toList (builderOf text o).mustaches.toList := by
  unfold progressOf directivesRead Progress.read
  rw [outlineOf_tree, outlineOf_directives, outlineOf_mustaches]

/-- Putting diagnostics in order does not depend on where they are. -/
theorem inOrder_map (m : Move) (ds : List Diagnostic) :
    inOrder (ds.map m.diagnostic) = (inOrder ds).map m.diagnostic := by
  unfold inOrder
  refine (List.map_mergeSort fun x _ y _ => ?_).symm
  rw [m.diagnostic_offset, m.diagnostic_offset, decide_eq_decide, m.offset_le]

end Template
end TemplateSyntax
