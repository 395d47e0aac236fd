import Mathlib.Data.List.Forall2
import TemplateSyntax.Proofs.FragmentParts
import TemplateSyntax.Proofs.Move
import TemplateSyntax.Proofs.OffsetMap
import TemplateSyntax.Proofs.ScriptMoved

/-! # Reading a fragment at another place

What is read of an embedded text depends on where the text stands in its offsets only, and the
offsets are those that the map of the fragment has for the indices of its text.  So a fragment that
follows another, with the same text and each offset moved, is read as the other one with all its
offsets moved, or fails in the same way at the place that is moved. -/

namespace TemplateSyntax

open Text (byteLength)

variable {m : Move} {f f' : Fragment}

/-! ## Fragments -/

/-- Shifts of the map and of the index are the same. -/
theorem OffsetMap.offset_shift (x : OffsetMap) {d : Int} {i j : Nat} (h : (i : Int) + d = j) :
    (x.shift d).offset i = x.offset j := by
  have hsteps : (x.shift d).steps i = x.steps j := by
    unfold steps shift
    rw [← h]
    congr 2
    show (i : Int) + (x.shiftBy + d) = i + d + x.shiftBy
    omega
  unfold offset skipped
  rw [hsteps]
  exact congrArg _ (search_shift ..)

/-- A fragment with the same text whose offsets are those of the other one moved. -/
structure Fragment.Follows (m : Move) (f f' : Fragment) : Prop where
  code : f'.code = f.code
  lang : f'.lang = f.lang
  reader : f'.reader = f.reader
  offset : ∀ i ≤ byteLength f.code, f'.map.offset i = m.offset (f.map.offset i)

namespace Fragment.Follows

/-- Parts of the text follow, too. -/
theorem part (h : Follows m f f') {start : Nat} {code : List Char}
    (hle : start + byteLength code ≤ byteLength f.code) :
    Follows m (f.part start code) (f'.part start code) where
  code := rfl
  lang := h.lang
  reader := h.reader
  offset i hi := by
    have hi' : i ≤ byteLength code := hi
    have hsum : (i : Int) + (start : Int) = (start + i : Nat) := by omega
    simp only [Fragment.part, OffsetMap.offset_shift _ hsum]
    exact h.offset (start + i) (by omega)

theorem isBlank (h : Follows m f f') : f'.isBlank = f.isBlank := by
  rw [Fragment.isBlank, Fragment.isBlank, h.code]

theorem trimStart (h : Follows m f f') : f'.trimStart = f.trimStart := by
  rw [Fragment.trimStart, Fragment.trimStart, h.code]

theorem trimStop (h : Follows m f f') : f'.trimStop = f.trimStop := by
  rw [Fragment.trimStop, Fragment.trimStop, h.code]

theorem span (h : Follows m f f') {i j : Nat} (hi : i ≤ byteLength f.code)
    (hj : j ≤ byteLength f.code) : f'.map.span i j = m.span (f.map.span i j) := by
  rw [OffsetMap.span, h.offset i hi, h.offset j hj]
  rfl

theorem trimmedSpan (h : Follows m f f') : f'.trimmedSpan = m.span f.trimmedSpan := by
  rw [Fragment.trimmedSpan, h.trimStart, h.trimStop]
  exact h.span f.trimStart_le f.trimStop_le

theorem failure (h : Follows m f f') {i : Nat} (hi : i ≤ byteLength f.code)
    (fault : ExpressionFault) : f'.failure i fault = m.failure (f.failure i fault) := by
  rw [Fragment.failure, h.offset i hi]
  rfl

end Fragment.Follows

/-! ## Wrapped fragments -/

namespace Wrapped

variable {wrapping : Wrapping}

theorem host_follows (h : f.Follows m f') (i : Nat) :
    (Wrapped.mk f' wrapping).host i = m.offset ((Wrapped.mk f wrapping).host i) := by
  -- an index of the wrapped text is one of the fragment, as far as it counts
  have hhost : ∀ x : Fragment, byteLength x.code = byteLength f.code →
      (Wrapped.mk x wrapping).host i =
        x.map.offset (min (max i (byteLength wrapping.before))
          (byteLength wrapping.before + byteLength f.code) - byteLength wrapping.before) := by
    intro x hx
    unfold host hi lo
    dsimp only
    rw [hx]
    exact OffsetMap.offset_shift _ (by omega)
  rw [hhost f rfl, hhost f' (by rw [h.code]), h.offset _ (by omega)]

theorem parse_follows (h : f.Follows m f') :
    (Wrapped.mk f' wrapping).parse =
      m.result (Script.mapStmts m.offset) (Wrapped.mk f wrapping).parse := by
  unfold parse
  dsimp only
  rw [h.code, h.lang, h.reader]
  split
  · next body _ =>
    have hhost : (Wrapped.mk f' wrapping).host = m.offset ∘ (Wrapped.mk f wrapping).host :=
      funext (host_follows h)
    rw [hhost, ← Script.mapStmts_map]
    rfl
  · rw [host_follows h]
    rfl

end Wrapped

/-! ## What is made of a script -/

namespace Move

open Script

theorem shape_expr (e : Expr) : (e.map m.offset).shape = m.shape e.shape := by
  rw [Expr.shape, Expr.map_kind, Expr.map_span]
  rfl

theorem shape_stmts (body : List Stmt) :
    (mapStmts m.offset body).map Stmt.shape = (body.map Stmt.shape).map m.shape := by
  rw [mapStmts_eq, List.map_map, List.map_map]
  refine List.map_congr_left fun x _ => ?_
  rw [Function.comp, Stmt.shape, Stmt.map_kind, Stmt.map_span]
  rfl

theorem shape_pats (pats : List Pat) :
    (mapPats m.offset pats).filterMap Pat.shape? = (pats.filterMap Pat.shape?).map m.shape := by
  rw [mapPats_eq, List.filterMap_map, List.map_filterMap]
  refine List.filterMap_congr fun p _ => ?_
  cases p <;> simp only [Function.comp, Pat.map, Pat.shape?, Pat.kind?] <;> rfl

theorem references_uses (uses : List Use) :
    (uses.map (Use.map m.offset)).map Use.reference = (uses.map Use.reference).map m.reference := by
  rw [List.map_map, List.map_map]
  rfl

theorem declaredVariables_pats (kind : VariableKind) (pats : List Pat) :
    declaredVariables kind (mapPats m.offset pats) = (declaredVariables kind pats).map m.declared := by
  rw [declaredVariables, declaredVariables, boundByPats_map, List.map_map, List.map_map]
  refine List.map_congr_left fun id _ => ?_
  simp [Move.declared]
  rfl

end Move

/-! ## Readers -/

namespace Fragment

open Script

theorem wrappedArguments?_map (g : Nat → Nat) (script : List Stmt) :
    wrappedArguments? (mapStmts g script) = (wrappedArguments? script).map (mapArgs g) := by
  rcases script with _ | ⟨x, _ | _⟩
  · rfl
  · cases x with
    | expr s e =>
      cases e with
      | call s callee arguments types => cases callee <;> rfl
      | _ => rfl
    | _ => rfl
  · cases x <;> simp [mapStmts, Stmt.map, wrappedArguments?]

theorem readOne_follows (h : f.Follows m f') :
    f'.readOne = m.result (Expr.map m.offset) f.readOne := by
  unfold readOne
  rw [Wrapped.parse_follows h]
  cases (Wrapped.mk f .expression).parse with
  | error e => rfl
  | ok body =>
    simp only [Move.result, bind, Except.bind, wrappedArguments?_map]
    have hfailure := h.failure (Nat.zero_le _)
    rcases wrappedArguments? body with _ | _ | ⟨a, _ | ⟨b, bs⟩⟩
    · exact congrArg Except.error (hfailure _)
    · exact congrArg Except.error (hfailure _)
    · cases a with
      | hole => exact congrArg Except.error (hfailure _)
      | _ => rfl
    · cases a <;> cases b <;> first | exact congrArg Except.error (hfailure _) | skip
      all_goals
        simp only [Option.map_some, mapArgs, Arg.map, throw, throwThe, MonadExceptOf.throw,
          Move.failure, Expr.map_span]
        rfl

/-- Nothing at all is the same everywhere. -/
theorem embedded_nothing : m.embedded {} = {} := by
  simp [Move.embedded]

theorem readPlain_follows (h : f.Follows m f') : f'.readPlain = m.result m.embedded f.readPlain := by
  unfold readPlain
  rw [h.isBlank, readOne_follows h]
  split
  · exact congrArg Except.ok embedded_nothing.symm
  · cases f.readOne with
    | error e => rfl
    | ok e =>
      refine congrArg Except.ok ?_
      simp [Move.embedded, Move.expression, m.shape_expr, ← m.references_uses,
        Expr.references_map fun _ _ => m.offset_le]

/-! ### Filters -/

/-- What happens to a filter. -/
def ReadFilter.move (m : Move) (r : ReadFilter) : ReadFilter :=
  ⟨r.callee.map m.offset, mapArgs m.offset r.arguments, m.span r.span⟩

theorem ReadFilter.filter_move (r : ReadFilter) : (r.move m).filter = m.filter r.filter := by
  have hone : filterArgument? ∘ Arg.map m.offset = fun a => (filterArgument? a).map m.filterArgument := by
    funext a
    cases a <;> simp only [Function.comp, Arg.map, filterArgument?, m.shape_expr] <;> rfl
  simp only [filter, move, Move.filter, mapArgs_eq, List.filterMap_map, List.map_filterMap, hone]
  rfl

theorem readFilter_follows (h : f.Follows m f') :
    f'.readFilter = m.result (ReadFilter.move m) f.readFilter := by
  unfold readFilter
  rw [h.isBlank, readOne_follows h]
  split
  · exact congrArg Except.error (h.failure (Nat.zero_le _) _)
  · cases f.readOne with
    | error e => rfl
    | ok e =>
      have hfailure := congrArg (Except.error (α := ReadFilter))
        (h.failure (Nat.zero_le _) .expectedFilterCall)
      cases e with
      | call s callee arguments types => cases callee <;> rfl
      | ident id => rfl
      | _ => exact hfailure

/-- Filters that follow are read in the same way, up to the first that cannot be read. -/
theorem readFilters_follow {fs fs' : List Fragment} (h : List.Forall₂ (Follows m) fs fs') :
    fs'.mapM readFilter = m.result (List.map (ReadFilter.move m)) (fs.mapM readFilter) := by
  induction h with
  | nil => rfl
  | @cons f f' fs fs' h _ ih =>
    rw [List.mapM_cons, List.mapM_cons, readFilter_follows h, ih]
    cases f.readFilter with
    | error e => rfl
    | ok r => cases fs.mapM readFilter <;> rfl

theorem readFiltered_follows {fs fs' : List Fragment} (h : f.Follows m f')
    (hs : List.Forall₂ (Follows m) fs fs') :
    f'.readFiltered fs' = m.result m.embedded (f.readFiltered fs) := by
  have hcover : ∀ (rs : List ReadFilter) (s : Span),
      (rs.map (ReadFilter.move m)).foldl (fun s r => s.cover r.span) (m.span s) =
        m.span (rs.foldl (fun s r => s.cover r.span) s) := by
    intro rs
    induction rs with
    | nil => exact fun s => rfl
    | cons r rs ih =>
      intro s
      rw [List.map_cons, List.foldl_cons, List.foldl_cons, ← ih, m.span_cover]
      rfl
  have harguments : ∀ rs : List ReadFilter, (rs.map (ReadFilter.move m)).flatMap ReadFilter.arguments =
      mapArgs m.offset (rs.flatMap ReadFilter.arguments) := by
    intro rs
    rw [mapArgs_eq, List.flatMap_map, List.map_flatMap]
    exact congrArg (rs.flatMap ·) (funext fun r => mapArgs_eq ..)
  have hfilters : ∀ rs : List ReadFilter, (rs.map (ReadFilter.move m)).map ReadFilter.filter =
      (rs.map ReadFilter.filter).map m.filter := by
    intro rs
    rw [List.map_map, List.map_map]
    exact List.map_congr_left fun r _ => r.filter_move
  unfold readFiltered
  rw [readOne_follows h, readFilters_follow hs]
  cases f.readOne with
  | error e => rfl
  | ok e =>
    cases fs.mapM readFilter with
    | error e => rfl
    | ok rs =>
      refine congrArg Except.ok ?_
      have hspan : (e.map m.offset).span = m.span e.span := e.map_span m.offset
      rw [hspan, hcover, harguments, hfilters, m.shape_expr,
        filteredReferences_map fun _ _ => m.offset_le, m.references_uses]
      simp [Move.embedded, Move.expression]

/-- An expression is read in the same way at another place. -/
theorem readExpression_follows (h : f.Follows m f') (filters : Bool) :
    f'.readExpression filters = m.result m.embedded (f.readExpression filters) := by
  unfold readExpression
  rw [h.isBlank, h.code]
  split
  · exact congrArg Except.ok embedded_nothing.symm
  · have hparts : ∀ p ∈ (if filters then Script.Scan.splitFilters f.code else []),
        Follows m (f.part p.start p.code) (f'.part p.start p.code) := by
      intro p hp
      split at hp
      · exact h.part (Script.Scan.splitFilters_between hp).le_size
      · simp at hp
    split
    · next head next more heq =>
      rw [heq] at hparts
      refine readFiltered_follows (hparts head (List.mem_cons_self ..)) ?_
      rw [List.forall₂_map_left_iff, List.forall₂_map_right_iff, List.forall₂_same]
      exact fun p hp => hparts p (List.mem_cons_of_mem head hp)
    · exact readPlain_follows h

/-! ### Iterations -/

/-- What happens to the pattern that a wrapping makes. -/
def WrappedAliases.map (g : Nat → Nat) : WrappedAliases → WrappedAliases
  | .elements pats => .elements (mapPats g pats)
  | .otherHead => .otherHead
  | .otherScript => .otherScript

theorem wrappedAliases_map (g : Nat → Nat) (script : List Stmt) :
    wrappedAliases (mapStmts g script) = (wrappedAliases script).map g := by
  rcases script with _ | ⟨x, _ | _⟩
  · rfl
  · cases x with
    | forEach kind s head right body =>
      cases kind with
      | forOf =>
        cases head with
        | declaration isVar ds =>
          rcases ds with _ | ⟨⟨name, init⟩, ds⟩
          · rfl
          · cases name <;> rfl
        | target p => rfl
      | _ => rfl
    | _ => rfl
  · cases x <;> simp [mapStmts, Stmt.map, wrappedAliases, WrappedAliases.map]

theorem filter_isPresent_map (g : Nat → Nat) (pats : List Pat) :
    (mapPats g pats).filter isPresent = mapPats g (pats.filter isPresent) := by
  rw [mapPats_eq, mapPats_eq, List.filter_map]
  refine congrArg (List.map _) (List.filter_congr fun p _ => ?_)
  cases p <;> rfl

theorem readAliases_follows (h : f.Follows m f') :
    f'.readAliases = m.result (mapPats m.offset) f.readAliases := by
  unfold readAliases
  rw [Wrapped.parse_follows h]
  cases (Wrapped.mk f .aliases).parse with
  | error e => rfl
  | ok body =>
    have hend : f'.failure (byteLength f'.code) .unexpectedToken =
        m.failure (f.failure (byteLength f.code) .unexpectedToken) := by
      rw [h.code]
      exact h.failure (Nat.le_refl _) _
    simp only [Move.result, bind, Except.bind, wrappedAliases_map]
    cases wrappedAliases body with
    | elements pats => exact congrArg Except.ok (filter_isPresent_map ..)
    | otherHead => exact congrArg Except.error (h.failure (Nat.zero_le _) _)
    | otherScript => exact congrArg Except.error hend

theorem iterationReferences_map (pats : List Pat) (e : Expr) :
    iterationReferences (mapPats m.offset pats) (e.map m.offset) =
      (iterationReferences pats e).map m.reference := by
  have hle : ∀ i j, m.offset i ≤ m.offset j ↔ i ≤ j := fun _ _ => m.offset_le
  unfold iterationReferences
  rw [Expr.references_map hle, patReferences_map hle, ← List.map_append, m.references_uses]
  exact (List.map_mergeSort fun a _ b _ => decide_eq_decide.2 (hle ..).symm).symm

/-- An iteration whose aliases and iterable are known. -/
def iterationOf (aliases right : Fragment) (hasParens : Bool) (leftSpan span : Span) :
    Except ReadFailure Embedded := do
  let pats ← aliases.readAliases
  let e ← right.readOne
  return {
    expression := some (.iteration (pats.filterMap Pat.shape?) e.shape hasParens leftSpan span)
    references := (iterationReferences pats e).toArray
    bindings := (declaredVariables .iteration pats).toArray }

theorem iterationOf_follows {g g' : Fragment} (hg : Follows m g g') (hf : Follows m f f')
    (hasParens : Bool) (leftSpan span : Span) :
    iterationOf g' f' hasParens (m.span leftSpan) (m.span span) =
      m.result m.embedded (iterationOf g f hasParens leftSpan span) := by
  unfold iterationOf
  rw [readAliases_follows hg, readOne_follows hf]
  cases g.readAliases with
  | error e => rfl
  | ok pats =>
    cases f.readOne with
    | error e => rfl
    | ok e =>
      refine congrArg Except.ok ?_
      rw [m.shape_pats, m.shape_expr, iterationReferences_map, m.declaredVariables_pats]
      simp [Move.embedded, Move.expression]

/-- So is an iteration. -/
theorem readIteration_follows (h : f.Follows m f') :
    f'.readIteration = m.result m.embedded f.readIteration := by
  unfold readIteration
  rw [h.isBlank, h.code]
  split
  · exact congrArg Except.ok embedded_nothing.symm
  · cases hsplit : Script.Scan.splitIteration f.code with
    | none => exact congrArg Except.error (h.failure (Nat.zero_le _) _)
    | some halves =>
      obtain ⟨hleft, -, hright⟩ := Script.Scan.splitIteration_between hsplit
      have hl : Follows m (f.part 0 halves.left) (f'.part 0 halves.left) :=
        h.part (by simpa using hleft.le_size)
      have hr : Follows m (f.part halves.right.start halves.right.code)
          (f'.part halves.right.start halves.right.code) := h.part (Nat.le_of_eq hright.1.symm)
      have hstart := (Fragment.between_aliases hsplit).le_size
      have hstop : (f.part halves.right.start halves.right.code).trimStop ≤
          byteLength halves.right.code := trimStop_le _
      have hsize := hright.1
      dsimp only
      rw [hl.isBlank, hl.trimStart, hr.trimStop]
      split
      · exact congrArg Except.error (h.failure (Nat.zero_le _) _)
      · rw [hl.trimmedSpan, h.span (show (f.part 0 halves.left).trimStart ≤ byteLength f.code by omega)
          (show halves.right.start + (f.part halves.right.start halves.right.code).trimStop ≤
            byteLength f.code by omega)]
        cases hinner : betweenParens? (Text.trim halves.left) with
        | none => exact iterationOf_follows (h.part hstart) hr false _ _
        | some code =>
          exact iterationOf_follows (h.part (between_innerAliases hsplit hinner).le_size) hr true _ _

/-! ### Functions -/

theorem wrappedFunction?_map (g : Nat → Nat) (script : List Stmt) :
    wrappedFunction? (mapStmts g script) = (wrappedFunction? script).map (Func.map g) := by
  rcases script with _ | ⟨x, _ | _⟩
  · rfl
  · cases x with
    | expr s e =>
      cases e with
      | unary s isVoid argument => cases isVoid <;> cases argument <;> rfl
      | _ => rfl
    | _ => rfl
  · cases x <;> simp [mapStmts, Stmt.map, wrappedFunction?]

/-- So are the parameters of a scope. -/
theorem readParameters_follows (h : f.Follows m f') :
    f'.readParameters = m.result m.embedded f.readParameters := by
  unfold readParameters
  rw [h.isBlank, Wrapped.parse_follows h]
  split
  · exact congrArg Except.ok embedded_nothing.symm
  · cases (Wrapped.mk f .parameters).parse with
    | error e => rfl
    | ok body =>
      simp only [Move.result, bind, Except.bind, wrappedFunction?_map]
      rcases wrappedFunction? body with _ | ⟨_ | ⟨p, params⟩, body⟩
      · exact congrArg Except.error (h.failure (Nat.zero_le _) _)
      · exact congrArg Except.ok embedded_nothing.symm
      · refine congrArg Except.ok ?_
        rw [m.shape_pats, patReferences_map fun _ _ => m.offset_le, m.references_uses,
          m.declaredVariables_pats, h.trimmedSpan]
        simp [Move.embedded, Move.expression]

theorem readStatements_follows (h : f.Follows m f') :
    f'.readStatements = m.result m.embedded f.readStatements := by
  unfold readStatements
  rw [Wrapped.parse_follows h]
  cases (Wrapped.mk f .statements).parse with
  | error e => rfl
  | ok body =>
    simp only [Move.result, bind, Except.bind, wrappedFunction?_map]
    rcases wrappedFunction? body with _ | ⟨params, body⟩
    · exact congrArg Except.error (h.failure (Nat.zero_le _) _)
    · refine congrArg Except.ok ?_
      rw [m.shape_stmts, bodyReferences_map fun _ _ => m.offset_le, m.references_uses, h.trimmedSpan]
      simp [Move.embedded, Move.expression]

/-- And so is a handler of an event. -/
theorem readHandler_follows (h : f.Follows m f') :
    f'.readHandler = m.result m.embedded f.readHandler := by
  unfold readHandler
  rw [h.isBlank, h.code]
  split
  · exact congrArg Except.ok embedded_nothing.symm
  · dsimp only
    split
    · exact readPlain_follows h
    · exact readStatements_follows h

end Fragment
end TemplateSyntax
