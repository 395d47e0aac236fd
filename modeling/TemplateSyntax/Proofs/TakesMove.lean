import TemplateSyntax.Proofs.Takes

/-! # Taking tokens of relocated markup

In front of other markup, a builder takes the same tokens up to where the markup goes on.  There it is as
the builder is that has read the markup alone, unless that one has looked for what comes behind it. -/

namespace TemplateSyntax

namespace Lexer

variable {x y : Lexer}

/-- However it is steered, a lexer that has taken the end of the text has done so. -/
theorem Spent.steered (h : x.Spent) (hs : x.Steered y) : y.Spent := by
  cases hs with
  | told hs =>
    obtain ⟨ns, interpolating, log, rfl⟩ := hs
    exact h
  | entered hs =>
    obtain ⟨ns, interpolating, log, rfl⟩ := hs
    rw [enter_eq]
    exact h

end Lexer

namespace Builder

variable {r : Relocation} {cs : List Char} {taken ts : List Token} {b before b' c : Builder}

/-- As long as the end of the text is not taken, the same tokens are taken in both readings. -/
theorem Moved.takes (h : b.Moved r (Seen taken) before b') (hr : Runs cs r.source taken b)
    (ht : b.Takes ts c) (hc : ¬ c.lexer.Spent) :
    ∃ c', b'.Takes (ts.map r.token) c' ∧ c.Moved r (Seen (taken ++ ts)) before c' := by
  induction ht with
  | nothing => exact ⟨b', .nothing, by rwa [List.append_nil]⟩
  | @token ts c t x ht hpull ih =>
    have hruns := ht.runs hr
    obtain ⟨floor, m, p, -, -, hstands⟩ := hruns.stands
    have hx : ¬ x.Spent := fun hspent =>
      hc (drain_lexer (b := { c with lexer := x, assembler := c.assembler.process t })
        (fun hs hx => hx.steered hs) hspent)
    have hpulled : c.lexer.pull.2 = x := congrArg Prod.snd hpull
    have hfront : ¬ c.lexer.Spent := fun hspent =>
      hx (hpulled ▸ hstands.built.tracks.spent_pull hspent)
    obtain ⟨c', htakes, hmoved⟩ := ih hfront
    obtain ⟨hsame, hfollows⟩ := hmoved.lexer.pull hstands.built.tracks (.inr (hpulled ▸ hx))
    have hpull' : c'.lexer.pull = (some (r.token t), c'.lexer.pull.2) :=
      Prod.ext (by rw [hsame, hpull]; rfl) rfl
    rw [hpull] at hfollows
    cases hruns.next with
    | ended hpull'' _ _ _ => exact absurd (hpull.symm.trans hpull'') (by simp)
    | token hpull'' htracks hloc _ _ _ =>
      obtain ⟨heq, rfl⟩ := Prod.mk.inj (hpull.symm.trans hpull'')
      obtain rfl := Option.some.inj heq
      refine ⟨c'.take (r.token t) c'.lexer.pull.2, ?_, ?_⟩
      · rw [List.map_append]
        exact htakes.token hpull'
      · rw [← List.append_assoc]
        exact hmoved.token hruns htracks hloc hfollows

end Builder
end TemplateSyntax
