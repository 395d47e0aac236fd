import TemplateSyntax.Proofs.ReadingPasses

/-! # The stages of reading a template

Reading a template makes an outline, reads what is embedded in it, and ties references to variables.
Here are the stages by name, and what holds between them: the ranges of the tree nest from the
outline on, and no stage relies on something that does not hold. -/

namespace TemplateSyntax
namespace Template

/-- The locator of a template. -/
def locatorOf (text : String) (o : Options) : Locator := .ofChars text.toList o.origin

/-- The outline of a template. -/
def outlineOf (text : String) (o : Options) : Outline :=
  .ofChars text.toList (locatorOf text o) o.tracing

/-- What the reading of the texts embedded in a template depends on. -/
def readingOf (text : String) (o : Options) (reader : Script.Reader := Script.parse) :
    Reading where
  text := text.toList
  locator := locatorOf text o
  map := OffsetMap.ofGaps o.origin (outlineOf text o).gaps
  lang := o.lang
  filters := o.filters
  reader := reader

/-- The tree with its directives read. -/
def directivesRead (text : String) (o : Options) (reader : Script.Reader := Script.parse) :
    Progress :=
  (outlineOf text o).directives.toList.foldl (Progress.readDirective (readingOf text o reader))
    { tree := (outlineOf text o).tree }

/-- The tree with all embedded texts read. -/
def progressOf (text : String) (o : Options) (reader : Script.Reader := Script.parse) : Progress :=
  (outlineOf text o).mustaches.toList.foldl (Progress.readMustache (readingOf text o reader))
    (directivesRead text o reader)

variable (text : String) (o : Options) {reader : Script.Reader}

theorem parse_eq : parse text o reader =
    { tree := (progressOf text o reader).tree.resolve
      tokens := (outlineOf text o).tokens
      comments := (outlineOf text o).comments
      diagnostics := (inOrder ((outlineOf text o).diagnostics.toList ++
        (progressOf text o reader).log.toList.filterMap
          (LogEntry.diagnostic? (locatorOf text o)))).toArray
      breaches := (outlineOf text o).breaches ++ (progressOf text o reader).breaches
      log := (outlineOf text o).log ++ (progressOf text o reader).log } := by
  simp only [parse, progressOf, directivesRead, Array.foldl_toList]
  rfl

theorem parse_tree : (parse text o reader).tree = (progressOf text o reader).tree.resolve := by
  simp only [parse_eq]

/-- The builder behind the outline of a template. -/
def builderOf : Builder :=
  (Builder.run (Outline.tokenBound (Builder.ofChars text.toList (locatorOf text o)
      o.tracing).lexer)
    (Builder.ofChars text.toList (locatorOf text o) o.tracing)).closeAll.placeRoot

theorem outlineOf_eq : outlineOf text o =
    { tree := (builderOf text o).tree
      directives := (builderOf text o).directives
      mustaches := (builderOf text o).mustaches
      tokens := (builderOf text o).assembler.tokens
      comments := (builderOf text o).assembler.comments
      gaps := (builderOf text o).lexer.sortedGaps
      diagnostics := (builderOf text o).lexer.diagnostics ++
        (builderOf text o).assembler.diagnostics ++ (builderOf text o).diagnostics
      breaches := (builderOf text o).lexer.breaches ++ (builderOf text o).lexer.buffer.breaches ++
        (builderOf text o).assembler.breaches ++ (builderOf text o).breaches
      log := (builderOf text o).lexer.log } := by
  simp only [outlineOf, Outline.ofChars, builderOf]

theorem outlineOf_tree : (outlineOf text o).tree = (builderOf text o).tree := by
  simp only [outlineOf_eq]

theorem outlineOf_directives :
    (outlineOf text o).directives = (builderOf text o).directives := by
  simp only [outlineOf_eq]

theorem outlineOf_mustaches : (outlineOf text o).mustaches = (builderOf text o).mustaches := by
  simp only [outlineOf_eq]

/-- The map of a template is made of its gaps. -/
theorem readingOf_gaps (reader : Script.Reader) :
    (readingOf text o reader).map.gaps = (builderOf text o).lexer.sortedGaps := by
  simp only [readingOf, OffsetMap.ofGaps, OffsetMap.atOffset, outlineOf_eq]

/-- Behind the outline the whole text is taken. -/
theorem builderOf_whole :
    ∃ taken, Whole text.toList (locatorOf text o) taken (builderOf text o) :=
  exists_whole text.toList o.origin o.tracing

/-- The mustaches of the outline are there when the directives are read. -/
theorem mustachesThere : MustachesThere (directivesRead text o reader).tree
    (outlineOf text o).mustaches.toList := by
  obtain ⟨taken, hwhole⟩ := builderOf_whole text o
  refine Progress.readDirectives_mustaches (fun m hm => ?_) _
  rw [outlineOf_mustaches, Array.mem_toList_iff] at hm
  obtain ⟨⟨n, hn, c, hc⟩, -⟩ := hwhole.mustaches m hm
  exact ⟨n, c, (outlineOf_tree text o).symm ▸ hn, hc⟩

/-- The tree keeps its shape while embedded texts are read. -/
theorem sameShape_progressOf :
    (outlineOf text o).tree.SameShape (progressOf text o reader).tree := by
  have hdirectives : (outlineOf text o).tree.SameShape (directivesRead text o reader).tree := by
    unfold directivesRead
    exact Progress.readDirectives_sameShape (readingOf text o reader)
      (outlineOf text o).directives.toList { tree := (outlineOf text o).tree }
  have hmustaches :
      (directivesRead text o reader).tree.SameShape (progressOf text o reader).tree := by
    have hspec := Progress.readMustaches_spec (r := readingOf text o reader)
      (p := directivesRead text o reader) (mustachesThere text o)
    exact hspec.1
  exact hdirectives.trans hmustaches

theorem linked_progressOf : (progressOf text o reader).tree.Linked := by
  obtain ⟨taken, hwhole⟩ := builderOf_whole text o
  have hshape : (outlineOf text o).tree.SameShape (progressOf text o reader).tree :=
    sameShape_progressOf text o
  rw [outlineOf_tree] at hshape
  exact hwhole.nests.linked.congr hshape.size hshape.parent hshape.children

/-- The tree keeps its shape from the outline on. -/
theorem sameShape_parse : (outlineOf text o).tree.SameShape (parse text o reader).tree := by
  rw [parse_tree]
  exact (sameShape_progressOf text o).trans (Tree.sameShape_resolve _)

/-- The tree of a template nests: each node lies in its parent, siblings follow each other, the
attributes of an element follow each other in its start tag, its children stand between its tags,
and the root goes from its first child to its last. -/
theorem parse_rangesNest : (parse text o reader).tree.RangesNest := by
  obtain ⟨taken, hwhole⟩ := builderOf_whole text o
  have hshape : (outlineOf text o).tree.SameShape (parse text o reader).tree := sameShape_parse text o
  rw [outlineOf_tree] at hshape
  exact hwhole.nests.congr hshape

/-- No stage relies on something that does not hold. -/
theorem breaches_eq_nil : (parse text o reader).breaches = [] := by
  obtain ⟨taken, hwhole⟩ := builderOf_whole text o
  have hthere : ∀ d ∈ (outlineOf text o).directives.toList,
      d.1 < (outlineOf text o).tree.size := by
    intro d hd
    rw [outlineOf_directives, Array.mem_toList_iff] at hd
    rw [outlineOf_tree]
    obtain ⟨e, x, he, -⟩ := hwhole.directives d hd
    obtain ⟨n, hn, -⟩ := Option.bind_eq_some_iff.1 he
    exact Tree.lt_size hn
  have hdirectives : (directivesRead text o reader).breaches = [] := by
    unfold directivesRead
    exact Progress.readDirectives_noBreach hthere rfl
  have hprogress : (progressOf text o reader).breaches = [] := by
    have hspec := Progress.readMustaches_spec (r := readingOf text o reader)
      (p := directivesRead text o reader) (mustachesThere text o)
    exact hspec.2.trans hdirectives
  obtain ⟨floor, houtputs⟩ := hwhole.assembler
  have hbuffer : (builderOf text o).lexer.buffer.breaches = [] := (hwhole.tracks.ended
    hwhole.ended.1).noBreach
  rw [parse_eq, hprogress, outlineOf_eq, hwhole.tracks.noBreach, hbuffer, houtputs.noBreach,
    hwhole.noBreach]
  rfl

end Template
end TemplateSyntax
