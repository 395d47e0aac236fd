import TemplateSyntax.Proofs.OutlineAppend

/-! # Templates behind a closed element

Nothing of a template leaks past an element that is complete.  Where the last byte of a text ends a tag
and no element is open behind it, the text that follows is read as a template of its own: the template
of both texts is that of the first one, and behind it that of the second one, moved. -/

namespace TemplateSyntax

open Text (byteLength From)

namespace Template

variable {text whole : String} {o : Options} {reader : Script.Reader} {r : Relocation}

/-! ## Embedded texts of a part -/

theorem readingOf_sorted (text : String) (o : Options) (reader : Script.Reader) :
    (readingOf text o reader).map.gaps.toList.Pairwise (· < ·) := by
  rw [readingOf_gaps]
  exact (builderOf text o).lexer.sortedGaps_spec.1

theorem readingOf_gap {x : Nat} (hx : x ∈ (readingOf text o reader).map.gaps) :
    (locatorOf text o).host 0 ≤ x ∧ x < (locatorOf text o).host (byteLength text.toList) := by
  obtain ⟨i, hi, rfl⟩ := outlineOf_gap text o hx
  exact ⟨Nat.add_le_add_left (Nat.zero_le i) _, Nat.add_lt_add_left hi _⟩

/-- The text `text` stands in `whole`, where `r` takes it. -/
structure PartOf (text whole : String) (o : Options) (r : Relocation) : Prop where
  source : r.source = locatorOf text o
  locator : r.locator = locatorOf whole o
  text : ∀ i tail, From text.toList i tail → From whole.toList (r.index + i) (tail ++ r.tail)

namespace PartOf

variable (h : PartOf text whole o r)
include h

theorem host_eq (i : Nat) :
    (locatorOf whole o).host (r.index + i) = r.offset ((locatorOf text o).host i) := by
  rw [← h.source, ← h.locator, r.host_eq]

/-- Bytes that follow each other do so in the whole. -/
theorem offset_add (i k : Nat) : r.offset ((locatorOf text o).host i + k) =
    r.offset ((locatorOf text o).host i) + k := by
  rw [show (locatorOf text o).host i + k = (locatorOf text o).host (i + k) from Nat.add_assoc ..,
    ← h.host_eq, ← h.host_eq]
  simp only [Locator.host]
  omega

theorem isQuoted {i : Nat} {c : Char} {tail : List Char} (hfrom : From text.toList i (c :: tail)) :
    (readingOf whole o reader).isQuoted (r.offset ((locatorOf text o).host i)) =
      (readingOf text o reader).isQuoted ((locatorOf text o).host i) := by
  have hwhole := h.text i _ hfrom
  rw [← h.host_eq]
  exact (Reading.isQuoted_host (r := readingOf whole o reader) hwhole).trans
    (Reading.isQuoted_host (r := readingOf text o reader) hfrom).symm

/-- A text that is embedded in the part is mapped to its place in the whole, where the gaps of the part
have moved, and all others stand behind it. -/
theorem maps {others : List Nat} (hothers : others.Pairwise (· < ·))
    (hbehind : ∀ x ∈ others, r.offset ((locatorOf text o).host (byteLength text.toList)) ≤ x)
    (hgaps : ∀ x, r.offset ((locatorOf text o).host 0) ≤ x →
      (x ∈ (readingOf whole o reader).map.gaps ↔
        (∃ g ∈ (readingOf text o reader).map.gaps, r.offset g = x) ∨ x ∈ others))
    {id : Nat} {extent : Extent} {code : List Char} {lo hi : Nat}
    (hat : EmbedsAt text o reader id extent code lo hi)
    (hhi : others ≠ [] → hi < byteLength text.toList) :
    (readingOf text o reader).Maps r.toMove (readingOf whole o reader) code
      ((locatorOf text o).host lo) := by
  have hlo : (locatorOf text o).host lo ≤ (locatorOf text o).host (byteLength text.toList) := by
    obtain ⟨hle, hle'⟩ := hat.mapped 0 (Nat.zero_le _)
    exact Nat.le_trans (Nat.le_trans hle hle') (Nat.add_le_add_left hat.embeds.le_size _)
  have hlater := OffsetMap.laterGaps_move (b := (locatorOf text o).host lo)
    (readingOf_sorted text o reader) (readingOf_sorted whole o reader) r.offset_lt hothers
    (fun x hx => ⟨Nat.le_trans (r.offset_le.2 hlo) (hbehind x hx), fun g hg =>
      Nat.lt_of_lt_of_le (r.offset_lt.2 (readingOf_gap hg).2) (hbehind x hx)⟩)
    (fun x hx => hgaps x (Nat.le_trans
      (r.offset_le.2 (Nat.add_le_add_left (Nat.zero_le lo) _)) hx))
  refine Reading.maps_of_gaps (readingOf_sorted text o reader) (readingOf_sorted whole o reader)
    (h.offset_add lo) hlater fun i hi' x hx => ?_
  have hstop := Nat.add_lt_add_left (hhi (List.ne_nil_of_mem hx)) (locatorOf text o).origin.offset
  exact Nat.lt_of_lt_of_le
    (r.offset_lt.2 (Nat.lt_of_le_of_lt (hat.mapped i hi').2 hstop)) (hbehind x hx)

/-- What is embedded in the part is mapped to its place in the whole, if the gaps are there. -/
theorem mapsPart (hmaps : ∀ {id extent code lo hi}, EmbedsAt text o reader id extent code lo hi →
      (readingOf text o reader).Maps r.toMove (readingOf whole o reader) code
        ((locatorOf text o).host lo)) :
    Progress.MapsPart r.toMove (readingOf text o reader) (readingOf whole o reader)
      (builderOf text o).tree (builderOf text o).directives.toList
      (builderOf text o).mustaches.toList where
  follows := ⟨rfl, rfl, rfl, fun s => by
    have hextent := r.extent_locator (locatorOf text o) s
    rw [h.locator] at hextent
    exact hextent.symm⟩
  attributes id e x he hx := by
    rw [← outlineOf_tree] at he
    refine ⟨⟨fun k => ?_, fun p hp => ?_⟩, fun v hv => ?_⟩
    · obtain ⟨i, f, j, hspan, -⟩ := exists_name he hx
      rw [hspan]
      exact h.offset_add i k
    · obtain ⟨lo, hi, hat, hstart⟩ := embedsAt_argument reader he hx hp
      rw [hstart]
      exact hmaps hat
    · obtain ⟨t, lo, hi, ht, hcontent, hat⟩ := exists_literal reader he hx hv
      obtain ⟨i, c, tail, hstart, hfrom⟩ := hcontent.first
      have hlo := LiteralContent.quoted_start (r := readingOf text o reader) hcontent
      rw [ht] at hstart hlo
      refine ⟨?_, fun _ => ?_, ?_⟩
      · rw [hstart]
        exact h.isQuoted hfrom
      · rw [hstart]
        exact h.offset_add i 1
      · rw [hlo]
        exact hmaps hat
  texts y hy := by
    have hy' : y ∈ (outlineOf text o).mustaches := by
      rw [outlineOf_mustaches]
      exact Array.mem_toList_iff.1 hy
    obtain ⟨n, hn⟩ := Tree.exists_node ((embedded_ne_root text o).2 y hy).2
    rw [← outlineOf_tree] at hn
    obtain ⟨lo, hi, hat, hstart⟩ := embedsAt_mustache reader hy' hn
    rw [hstart]
    exact hmaps hat
  directives := (embedded_ne_root text o).1
  mustaches := (embedded_ne_root text o).2

end PartOf

/-! ## The two parts -/

variable {front : String} (back : String) (reader)

theorem partOf_front (front : String) (o : Options) :
    PartOf front (front ++ back) o (inFront front back o) where
  source := rfl
  locator := rfl
  text i tail h := by
    obtain ⟨pre, hpre, hsize⟩ := h
    refine ⟨pre, ?_, hsize.trans (Nat.zero_add i).symm⟩
    rw [String.toList_append, hpre, List.append_assoc]
    rfl

theorem partOf_back (front : String) (o : Options) (nodes : Nat) (gaps : Array Nat)
    (diagnostics : Array Diagnostic) :
    PartOf back (front ++ back) o (goingOn front back o nodes gaps diagnostics) where
  source := rfl
  locator := rfl
  text i tail h := by
    obtain ⟨pre, hpre, hsize⟩ := h
    refine ⟨front.toList ++ pre, ?_, ?_⟩
    · rw [String.toList_append, hpre, List.append_assoc]
      exact congrArg (_ ++ ·) (congrArg (_ ++ ·) (List.append_nil tail).symm)
    · rw [Text.byteLength_append, hsize]
      rfl

section
variable (h : EndsClosed front o)
include h

/-- The gaps of both texts. -/
theorem EndsClosed.mem_gaps {x : Nat} : x ∈ (readingOf (front ++ back) o reader).map.gaps ↔
    x ∈ (readingOf front o reader).map.gaps ∨
      ∃ g ∈ (readingOf back o reader).map.gaps, byteLength front.toList + g = x := by
  simp only [readingOf_gaps, (Lexer.sortedGaps_spec _).2, (h.joined back).gaps, Array.mem_append,
    Array.mem_map]
  exact or_congr_left ⟨fun ⟨g, hg, heq⟩ => heq ▸ hg, fun hx => ⟨x, hx, rfl⟩⟩

/-- The embedded texts of the first text are mapped as they are without the second one. -/
theorem EndsClosed.mapsPart_front : Progress.MapsPart (inFront front back o).toMove
    (readingOf front o reader) (readingOf (front ++ back) o reader) (builderOf front o).tree
    (builderOf front o).directives.toList (builderOf front o).mustaches.toList := by
  have hpart := partOf_front back front o
  have hsorted : ((readingOf back o reader).map.gaps.toList.map
      (byteLength front.toList + ·)).Pairwise (· < ·) :=
    (readingOf_sorted back o reader).map _ fun _ _ hlt => Nat.add_lt_add_left hlt _
  refine hpart.mapsPart fun hat => hpart.maps hsorted (fun x hx => ?_) (fun x _ => ?_) hat
    fun _ => h.embeds_lt hat.embeds
  · obtain ⟨g, hg, rfl⟩ := List.mem_map.1 hx
    have hle := (readingOf_gap (Array.mem_toList_iff.1 hg)).1
    simp only [Locator.host, locatorOf, Locator.ofChars, inFront] at hle ⊢
    omega
  · rw [h.mem_gaps reader back, List.mem_map]
    refine or_congr ⟨fun hx => ⟨x, hx, rfl⟩, ?_⟩ ?_
    · rintro ⟨g, hg, rfl⟩
      exact hg
    · simp only [Array.mem_toList_iff]

/-- Those of the second text are mapped as they are without the first one. -/
theorem EndsClosed.mapsPart_back : Progress.MapsPart
    (behind front back o ((builderOf front o).tree.size - 1)) (readingOf back o reader)
    (readingOf (front ++ back) o reader) (builderOf back o).tree
    (builderOf back o).directives.toList (builderOf back o).mustaches.toList := by
  have hpart := partOf_back back front o ((builderOf front o).tree.size - 1) #[] #[]
  refine hpart.mapsPart fun hat => hpart.maps List.Pairwise.nil (by simp) (fun x hx => ?_) hat
    fun hne => absurd rfl hne
  have hfront : x ∉ (readingOf front o reader).map.gaps := fun hmem => by
    have hlt := (readingOf_gap hmem).2
    have hle : byteLength front.toList + ((locatorOf back o).host 0) ≤ x := hx
    simp only [Locator.host, locatorOf, Locator.ofChars] at hlt hle
    omega
  rw [h.mem_gaps reader back, or_iff_right hfront, or_iff_left (List.not_mem_nil)]
  rfl

/-- What is embedded in both texts is read as it is in each of them. -/
theorem EndsClosed.progress : Tree.Joins (inFront front back o).toMove
      (behind front back o ((builderOf front o).tree.size - 1)) (progressOf front o reader).tree
      (progressOf back o reader).tree (progressOf (front ++ back) o reader).tree ∧
    ∃ la la' lb lb', (progressOf front o reader).log = la ++ la' ∧
      (progressOf back o reader).log = lb ++ lb' ∧
      (progressOf (front ++ back) o reader).log =
        la.map (inFront front back o).logEntry ++
          lb.map (behind front back o ((builderOf front o).tree.size - 1)).logEntry ++
        la'.map (inFront front back o).logEntry ++
          lb'.map (behind front back o ((builderOf front o).tree.size - 1)).logEntry := by
  have hjoined := h.joined back
  have hread := Progress.read_joins hjoined.tree (h.mapsPart_front reader back)
    (h.mapsPart_back reader back)
  rw [progressOf_eq, progressOf_eq, progressOf_eq, hjoined.directives, hjoined.mustaches]
  simp only [Array.toList_append, Array.toList_map]
  exact hread

/-- All that is found in the first text stands in front of its end. -/
theorem EndsClosed.diagnostic_lt {d : Diagnostic}
    (hd : d ∈ (parse front o reader).diagnostics) :
    d.offset < (locatorOf front o).host (byteLength front.toList) := by
  rw [parse_eq] at hd
  have hmem := (List.mergeSort_perm _ _).mem_iff.1 (List.mem_toArray.1 hd)
  rcases List.mem_append.1 hmem with hmem | hmem
  · exact h.found_lt (Array.mem_toList_iff.1 hmem)
  · rcases offset_of_fault hmem with ⟨id, extent, code, lo, hi, hembeds, -, hle⟩ | hname
    · exact Nat.lt_of_le_of_lt hle (Nat.add_lt_add_left (h.embeds_lt hembeds) _)
    · obtain ⟨id, e, a, he, ha, -, hle⟩ := hname
      exact Nat.lt_of_le_of_lt hle (h.attribute_lt he ha).1

end

/-! ## Templates -/

/-- The template `t` is the template `a` with `b` behind it, as `m` moves it. -/
structure Appends (m : Move) (a b t : Template) : Prop where
  size : t.tree.size + 1 = a.tree.size + b.tree.size
  topLevel : t.tree.children Tree.root =
    a.tree.children Tree.root ++ (b.tree.children Tree.root).map m.node
  front : ∀ id, id ≠ Tree.root → id < a.tree.size → t.tree.node? id = a.tree.node? id
  back : ∀ id, id ≠ Tree.root → id < b.tree.size →
    t.tree.node? (m.node id) = (b.tree.node? id).map m.treeNode
  links : t.tree.links = a.tree.links ++ b.tree.links.map m.link
  tokens : t.tokens = a.tokens ++ b.tokens.map m.token
  comments : t.comments = a.comments ++ b.comments.map m.token
  diagnostics : t.diagnostics = a.diagnostics ++ b.diagnostics.map m.diagnostic

/-- All diagnostics of a template, as they are found. -/
def found (text : String) (o : Options) (reader : Script.Reader) : List Diagnostic :=
  (outlineOf text o).diagnostics.toList ++ (progressOf text o reader).log.toList.filterMap
    (LogEntry.diagnostic? (locatorOf text o))

theorem parse_diagnostics (text : String) (o : Options) (reader : Script.Reader) :
    (parse text o reader).diagnostics = (inOrder (found text o reader)).toArray := by
  rw [parse_eq]
  rfl

section
variable (h : EndsClosed front o)
include h

/-- What is read of the first text has the same places if the text goes on. -/
theorem EndsClosed.fixed : (parse front o reader).Moved (inFront front back o).toMove
    (parse front o reader) := by
  obtain ⟨ts, t, c, -, -, -, hclean⟩ := h.exists_clean
  have hlast : front.toList.getLast? ≠ some '\r' := by
    rw [hclean.getLast?]
    decide
  refine (Moved.refl _).congr rfl fun s hs => ?_
  have hle := (spots_inText front o reader s hs).2
  rw [locatorOf_size] at hle
  have hposition : s.position.map (Move.refl.position s.offset) =
      s.position.map ((inFront front back o).position s.offset) := by
    cases hp : s.position with
    | none => rfl
    | some p =>
      rw [spots_exact front o hs hp]
      refine congrArg some ?_
      have hsame := Locator.position_append hlast back.toList o.origin hle
      rw [← String.toList_append] at hsame
      exact hsame.symm
  exact congrArg (Spot.mk s.offset) hposition

/-- The trees of both texts under one root. -/
theorem EndsClosed.tree_joins : Tree.Joins (inFront front back o).toMove
    (behind front back o ((builderOf front o).tree.size - 1)) (parse front o reader).tree
    (parse back o reader).tree (parse (front ++ back) o reader).tree := by
  rw [parse_tree, parse_tree, parse_tree]
  exact (h.progress reader back).1.resolve (linked_progressOf front o) (linked_progressOf back o)
    (linked_progressOf (front ++ back) o)
    ⟨progressOf_untied front o, progressOf_untied back o, progressOf_untied (front ++ back) o⟩

/-- All that is found, in both texts together, pass by pass. -/
theorem EndsClosed.found_passes : ∃ passes : List (List Diagnostic × List Diagnostic),
    found front o reader = passes.flatMap Prod.fst ∧ found back o reader = passes.flatMap Prod.snd ∧
      found (front ++ back) o reader = passes.flatMap fun x =>
        x.1.map (inFront front back o).diagnostic ++
          x.2.map (behind front back o ((builderOf front o).tree.size - 1)).diagnostic := by
  have hjoined := h.joined back
  obtain ⟨-, la, la', lb, lb', hfrontLog, hbackLog, hlog⟩ := h.progress reader back
  have hfront : ∀ log : List LogEntry, (log.map (inFront front back o).logEntry).filterMap
      (LogEntry.diagnostic? (locatorOf (front ++ back) o)) =
        (log.filterMap (LogEntry.diagnostic? (locatorOf front o))).map
          (inFront front back o).diagnostic :=
    LogEntry.diagnostics_logEntry fun _ _ => rfl
  have hback : ∀ log : List LogEntry, (log.map
      (behind front back o ((builderOf front o).tree.size - 1)).logEntry).filterMap
        (LogEntry.diagnostic? (locatorOf (front ++ back) o)) =
        (log.filterMap (LogEntry.diagnostic? (locatorOf back o))).map
          (behind front back o ((builderOf front o).tree.size - 1)).diagnostic :=
    LogEntry.diagnostics_logEntry fun _ _ => rfl
  let faults text := List.filterMap (LogEntry.diagnostic? (locatorOf text o))
  refine ⟨[((builderOf front o).lexer.diagnostics.toList, (builderOf back o).lexer.diagnostics.toList),
    ((builderOf front o).assembler.diagnostics.toList,
      (builderOf back o).assembler.diagnostics.toList),
    ((builderOf front o).diagnostics.toList, (builderOf back o).diagnostics.toList),
    (faults front la.toList, faults back lb.toList),
    (faults front la'.toList, faults back lb'.toList)], ?_, ?_, ?_⟩
  · simp [found, outlineOf_eq, hfrontLog, faults]
  · simp [found, outlineOf_eq, hbackLog, faults]
  · simp only [found, outlineOf_eq, hlog, hjoined.found, hjoined.raised, hjoined.reported, faults,
      Array.toList_append, Array.toList_map, List.filterMap_append, hfront, hback, List.flatMap_cons,
      List.flatMap_nil, List.append_nil, List.append_assoc]

/-- The diagnostics of the second text come behind those of the first one. -/
theorem EndsClosed.diagnostics_append : (parse (front ++ back) o reader).diagnostics =
    (parse front o reader).diagnostics.map (inFront front back o).diagnostic ++
      (parse back o reader).diagnostics.map
        (behind front back o ((builderOf front o).tree.size - 1)).diagnostic := by
  obtain ⟨passes, hfront, hback, hwhole⟩ := h.found_passes reader back
  have hmem : ∀ {text : String} {d : Diagnostic}, d ∈ found text o reader →
      d ∈ (parse text o reader).diagnostics := by
    intro text d hd
    rw [parse_diagnostics]
    exact List.mem_toArray.2 ((List.mergeSort_perm _ _).mem_iff.2 hd)
  have hlt : ∀ d ∈ found front o reader,
      d.offset < (locatorOf front o).host (byteLength front.toList) :=
    fun d hd => h.diagnostic_lt reader (hmem hd)
  have hle : ∀ d ∈ found back o reader,
      (locatorOf front o).host (byteLength front.toList) ≤ byteLength front.toList + d.offset := by
    intro d hd
    have hstart := (within_array.1 (diagnostics_inText back o reader) d (hmem hd) _
      (List.mem_singleton_self _)).1
    simp only [Locator.host, locatorOf, Locator.ofChars] at hstart ⊢
    omega
  rw [hfront] at hlt
  rw [hback] at hle
  rw [parse_diagnostics, parse_diagnostics, parse_diagnostics, hwhole, inOrder_passes hlt hle,
    ← hfront, ← hback, List.map_toArray, List.map_toArray, List.append_toArray]

end

/-- Nothing leaks past a complete element at the top level: where the last byte of a text ends a tag and
leaves no element open, the template of that text and any other one behind it has the nodes, tokens,
comments, diagnostics and links of the first text, and behind them those of the second one, with nodes
counted on and places moved by the size of the first text. -/
theorem parse_append (h : EndsClosed front o) :
    Appends (behind front back o ((parse front o reader).tree.size - 1)) (parse front o reader)
      (parse back o reader) (parse (front ++ back) o reader) := by
  have hsize : (parse front o reader).tree.size = (builderOf front o).tree.size := by
    rw [(sameShape_parse front o).size, outlineOf_tree]
  have hfixed := h.fixed reader back
  have hjoins := h.tree_joins reader back
  have hjoined := h.joined back
  have hlink : (inFront front back o).link = id := rfl
  have hrecord : ∀ text, (parse text o reader).tokens = (builderOf text o).assembler.tokens ∧
      (parse text o reader).comments = (builderOf text o).assembler.comments := fun text => by
    rw [parse_eq, outlineOf_eq]
    exact ⟨rfl, rfl⟩
  rw [hsize]
  constructor
  case size => exact hjoins.size
  case topLevel =>
    obtain ⟨children, children', e, e', e'', hfront, hback, hwhole⟩ := hjoins.top
    rw [Tree.children_eq hfront, Tree.children_eq hback, Tree.children_eq hwhole]
    rfl
  case front => exact fun id hid hlt => (hjoins.front.node id hid hlt).trans (hfixed.node? id).symm
  case back => exact hjoins.back.node
  case links => rw [hjoins.links, hlink, List.map_id]
  case tokens =>
    rw [(hrecord _).1, hjoined.tokens, ← (hrecord _).1, ← (hrecord _).1, ← hfixed.tokens]
  case comments =>
    rw [(hrecord _).2, hjoined.comments, ← (hrecord _).2, ← (hrecord _).2, ← hfixed.comments]
  case diagnostics => rw [h.diagnostics_append reader back, ← hfixed.diagnostics]

/-- The theorem where a text with a mustache follows an element with a start tag and an end tag. -/
theorem parse_append_element : EndsClosed "<a></a>" {} ∧
    Appends (behind "<a></a>" "\x7b\x7b b \x7d\x7d" {} ((parse "<a></a>" {}).tree.size - 1))
      (parse "<a></a>" {}) (parse "\x7b\x7b b \x7d\x7d" {})
      (parse ("<a></a>" ++ "\x7b\x7b b \x7d\x7d") {}) :=
  have hcloses : EndsClosed "<a></a>" {} := endsClosed_of_closesBehind 3 (by decide +kernel)
  ⟨hcloses, parse_append _ _ hcloses⟩

end Template
end TemplateSyntax
