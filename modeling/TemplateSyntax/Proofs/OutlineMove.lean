import TemplateSyntax.Proofs.BuilderMove

/-! # Outlines of relocated markup

A builder takes the tokens of relocated markup as it takes the tokens themselves, one after the other,
so that the builders of two readings are behind the same unit when the text is at its end.  Steps that
are left over do not count. -/

namespace TemplateSyntax

/-- A start tag is among the tokens. -/
def Seen (taken : List Token) : Prop := ∃ x ∈ taken, x.kind = .tagOpen

theorem Seen.seenWith {taken : List Token} {t : Token} (h : Seen (taken ++ [t])) :
    Lexer.SeenWith (Seen taken) (some t) := by
  obtain ⟨x, hx, hopen⟩ := h
  rcases List.mem_append.1 hx with hx | hx
  · exact .inl ⟨x, hx, hopen⟩
  · obtain rfl := List.mem_singleton.1 hx
    exact .inr ⟨x, rfl, hopen⟩

theorem UnitsIn.seen {closing : Prop} {taken : List Token} {lo hi : Nat} {units : Array MarkupUnit}
    (h : UnitsIn closing taken lo units.toList hi) {t : StartTag} (ht : .startTag t ∈ units) :
    Seen taken := by
  have hread : t.ReadFrom taken := h.readFrom (.startTag t) (Array.mem_toList_iff.2 ht)
  exact hread.opening

namespace Builder

/-- The builder behind the token `t`, where `x` is the lexer. -/
def take (b : Builder) (t : Token) (x : Lexer) : Builder :=
  { b with lexer := x, assembler := b.assembler.process t }.drain

/-- The builder at the end of the text, where `x` is the lexer. -/
def atEnd (b : Builder) (x : Lexer) : Builder :=
  { b with lexer := x, assembler := b.assembler.commit }.drain

variable {b : Builder} {t : Token} {x : Lexer} {fuel fuel' : Nat}

theorem run_token (h : b.lexer.pull = (some t, x)) : run (fuel + 1) b = run fuel (b.take t x) := by
  rw [run, h]
  rfl

theorem run_atEnd (h : b.lexer.pull = (none, x)) : run (fuel + 1) b = b.atEnd x := by
  rw [run, h]
  rfl

end Builder

namespace Runs

variable {cs : List Char} {l : Locator} {taken : List Token} {b : Builder}

/-- What a builder that runs takes next. -/
inductive Next (cs : List Char) (l : Locator) (taken : List Token) (b : Builder) : Prop
  | token {t : Token} {x : Lexer} (hpull : b.lexer.pull = (some t, x))
      (hx : x.Tracks cs (taken ++ [t])) (hloc : x.locator = l)
      (hruns : Runs cs l (taken ++ [t]) (b.take t x))
      (hlt : (b.take t x).lexer.tokensLeft < b.lexer.tokensLeft)
      (hc : t.kind.closesTag = true → x.buffer.ready = [] ∧ x.finished = false ∧ x.BehindTag ∧
        x.Unmoved (b.take t x).lexer)
  | ended {x : Lexer} (hpull : b.lexer.pull = (none, x)) (hx : x.Tracks cs taken)
      (hloc : x.locator = l) (hended : Ended cs l taken (b.atEnd x))

theorem next (h : Runs cs l taken b) : Next cs l taken b := by
  obtain ⟨floor, m, p, -, -, hstands⟩ := h.stands
  have hpull := hstands.built.tracks.pull
  have hloc : b.lexer.pull.2.locator = l :=
    (Lexer.pull_locator _).trans hstands.built.locator.2
  generalize hhanded : b.lexer.pull = handed at hpull hloc
  cases hpull with
  | @token t x hx hlt hc =>
    obtain ⟨hruns, hstays⟩ := h.token hx hloc fun hk => (hc hk).2.2.atContent (hc hk).1
    refine .token hhanded hx hloc hruns ?_ fun hk => ⟨(hc hk).1, (hc hk).2.1, (hc hk).2.2, hstays⟩
    exact (congrArg (· < b.lexer.tokensLeft) hstays.tokensLeft).mpr hlt
  | @ended x hx hf hr => exact .ended hhanded hx hloc (h.ended hx hloc hf hr)

/-- Steps that are left over change nothing. -/
theorem run_le {fuel fuel' : Nat} (h : Runs cs l taken b) (hfuel : b.lexer.tokensLeft < fuel)
    (hle : fuel ≤ fuel') : Builder.run fuel' b = Builder.run fuel b := by
  induction fuel generalizing b taken fuel' with
  | zero => omega
  | succ fuel ih =>
    obtain ⟨fuel', rfl⟩ : ∃ n, fuel' = n + 1 := ⟨fuel' - 1, by omega⟩
    cases h.next with
    | token hpull hx hloc hruns hlt hc =>
      rw [Builder.run_token hpull, Builder.run_token hpull]
      exact ih hruns (by omega) (by omega)
    | ended hpull hx hloc hended => rw [Builder.run_atEnd hpull, Builder.run_atEnd hpull]

/-- All numbers of steps that are enough come to the same. -/
theorem run_eq {fuel fuel' : Nat} (h : Runs cs l taken b) (hfuel : b.lexer.tokensLeft < fuel)
    (hfuel' : b.lexer.tokensLeft < fuel') : Builder.run fuel b = Builder.run fuel' b := by
  rcases Nat.le_total fuel fuel' with hle | hle
  · exact (h.run_le hfuel hle).symm
  · exact h.run_le hfuel' hle

end Runs

namespace Builder.Moved

variable {r : Relocation} {cs : List Char} {taken : List Token} {b before b' : Builder}

/-- A token more is taken. -/
theorem token (h : b.Moved r (Seen taken) before b') (hr : Runs cs r.source taken b) {t : Token}
    {x x' : Lexer} (hx : x.Tracks cs (taken ++ [t])) (hloc : x.locator = r.source)
    (hl : x.Follows r (Lexer.SeenWith (Seen taken) (some t)) x') :
    (b.take t x).Moved r (Seen (taken ++ [t])) before (b'.take (r.token t) x') := by
  obtain ⟨floor, mid, m, p, -, -, -, hunits, -⟩ := hr.process hx hloc
  have hprocess : ({ b with lexer := x, assembler := b.assembler.process t } : Builder).Moved r
      (Seen (taken ++ [t])) before
      { b' with lexer := x', assembler := b'.assembler.process (r.token t) } :=
    { h with
      lexer := hl.see Seen.seenWith
      assembler := h.assembler.process t }
  exact hprocess.drain fun tag htag => hunits.seen htag

/-- The text of both readings is at its end. -/
theorem atEnd (h : b.Moved r (Seen taken) before b') (hr : Runs cs r.source taken b) {x x' : Lexer}
    (hx : x.Tracks cs taken) (hloc : x.locator = r.source) (hl : x.Follows r (Seen taken) x') :
    (b.atEnd x).Moved r (Seen taken) before (b'.atEnd x') := by
  obtain ⟨floor, mid, p, -, -, hunits, -⟩ := hr.commit hx hloc
  have hcommit : ({ b with lexer := x, assembler := b.assembler.commit } : Builder).Moved r
      (Seen taken) before { b' with lexer := x', assembler := b'.assembler.commit } :=
    { h with
      lexer := hl
      assembler := h.assembler.commit }
  exact hcommit.drain fun tag htag => hunits.seen htag

/-- Two readings that come to the end of their texts together take the same units. -/
theorem run {fuel : Nat} (h : b.Moved r (Seen taken) before b') (hr : Runs cs r.source taken b)
    (htail : r.tail = []) (hfuel : b.lexer.tokensLeft < fuel) :
    ∃ taken', Ended cs r.source taken' (Builder.run fuel b) ∧
      (Builder.run fuel b).Moved r (Seen taken') before (Builder.run fuel b') := by
  induction fuel generalizing b b' taken with
  | zero => omega
  | succ fuel ih =>
    obtain ⟨floor, m, p, -, -, hstands⟩ := hr.stands
    obtain ⟨hsame, hfollows⟩ := h.lexer.pull hstands.built.tracks (.inl htail)
    cases hr.next with
    | @token t x hpull hx hloc hruns hlt hc =>
      have hpull' : b'.lexer.pull = (some (r.token t), b'.lexer.pull.2) :=
        Prod.ext (by rw [hsame, hpull]; rfl) rfl
      rw [hpull] at hfollows
      rw [Builder.run_token hpull, Builder.run_token hpull']
      exact ih (h.token hr hx hloc hfollows) hruns (by omega)
    | @ended x hpull hx hloc hended =>
      have hpull' : b'.lexer.pull = (none, b'.lexer.pull.2) :=
        Prod.ext (by rw [hsame, hpull]; rfl) rfl
      rw [hpull] at hfollows
      rw [Builder.run_atEnd hpull, Builder.run_atEnd hpull']
      exact ⟨taken, hended, h.atEnd hr hx hloc (hfollows.see .inl)⟩

/-- The root gets its place. -/
theorem placeRoot {seen : Prop} (h : b.Moved r seen before b') :
    b.placeRoot.Moved r seen before b'.placeRoot := by
  have hroot : ∀ {t t' : Tree} (e e' : Extent), t.Moved r before.tree t' →
      (t.modify Tree.root fun n => { n with extent := e }).Moved r before.tree
        (t'.modify Tree.root fun n => { n with extent := e' }) := by
    intro t t' e e' ht
    refine ⟨?_, fun id hid => ?_, fun id hid hle => ?_, ?_, fun p c hmem => ?_⟩
    · rw [Tree.size_modify, Tree.size_modify, ht.size]
    · rw [Tree.node?_modify_of_ne (Ne.symm hid),
        Tree.node?_modify_of_ne (Ne.symm (mt r.node_eq_root.1 hid)), ht.node id hid]
    · rw [Tree.node?_modify_of_ne (Ne.symm hid), ht.front id hid hle]
    · obtain ⟨children, extent, extent', htop, htop'⟩ := ht.top
      refine ⟨children, e, e', ?_, ?_⟩
      · rw [Tree.node?_modify, if_pos rfl, htop, Option.map_some]
      · rw [Tree.node?_modify, if_pos rfl, htop', Option.map_some]
    · have hsame : ∀ n : Node, ({ n with extent := e } : Node).children = n.children := fun n => rfl
      rw [Tree.children_modify hsame] at hmem
      exact ht.child p c hmem
  exact (h.check _ _ _).withTree (hroot _ _ h.tree)

end Builder.Moved
end TemplateSyntax
