import TemplateSyntax.Proofs.ScopeEffects
import TemplateSyntax.Proofs.ScriptSpans
import TemplateSyntax.Script.Moved

/-! # What is moved with a script

Moving a script moves its spans and identifiers one by one, and what it does to the scopes is the same at
the other places.  So moving twice is moving once, and what a script takes from its surroundings is moved
with it, as long as the places keep their order. -/

namespace TemplateSyntax.Script

variable (f g : Nat → Nat) (P : Ident → Prop)

@[simp] theorem Ident.map_map (id : Ident) : (id.map f).map g = id.map (g ∘ f) := rfl

@[simp] theorem Ident.map_comp : Ident.map g ∘ Ident.map f = Ident.map (g ∘ f) := rfl

@[simp] theorem Ident.map_span (id : Ident) : (id.map f).span = id.span.map f := rfl

@[simp] theorem Ident.map_name (id : Ident) : (id.map f).name = id.name := rfl

@[simp] theorem Ident.span_comp_map : Ident.span ∘ Ident.map f = Span.map f ∘ Ident.span := rfl

@[simp] theorem toList_map_ident (name : Option Ident) :
    (name.map (Ident.map f)).toList = name.toList.map (Ident.map f) := by
  cases name <;> rfl

/-! ## Lists, kinds and places -/

theorem mapArgs_eq (args : List Arg) : mapArgs f args = args.map (Arg.map f) := by
  induction args with
  | nil => rw [mapArgs, List.map_nil]
  | cons a args ih => rw [mapArgs, List.map_cons, ih]

theorem mapPats_eq (pats : List Pat) : mapPats f pats = pats.map (Pat.map f) := by
  induction pats with
  | nil => rw [mapPats, List.map_nil]
  | cons p pats ih => rw [mapPats, List.map_cons, ih]

theorem mapStmts_eq (body : List Stmt) : mapStmts f body = body.map (Stmt.map f) := by
  induction body with
  | nil => rw [mapStmts, List.map_nil]
  | cons x body ih => rw [mapStmts, List.map_cons, ih]

@[simp] theorem Expr.map_kind (e : Expr) : (e.map f).kind = e.kind := by
  cases e <;> simp only [Expr.map, Expr.kind]

@[simp] theorem Expr.map_span (e : Expr) : (e.map f).span = e.span.map f := by
  cases e <;> simp only [Expr.map, Expr.span, Ident.map_span]

@[simp] theorem Stmt.map_kind (x : Stmt) : (x.map f).kind = x.kind := by
  cases x <;> simp only [Stmt.map, Stmt.kind]

@[simp] theorem Stmt.map_span (x : Stmt) : (x.map f).span = x.span.map f := by
  cases x <;> simp only [Stmt.map, Stmt.span]

@[simp] theorem Pat.map_kind? (p : Pat) : (p.map f).kind? = p.kind? := by
  cases p <;> simp only [Pat.map, Pat.kind?]

/-- A pattern that has a kind is moved with its span. -/
theorem Pat.map_span {p : Pat} (hp : p.kind?.isSome = true) : (p.map f).span = p.span.map f := by
  cases p with
  | expr _ | hole => simp [Pat.kind?] at hp
  | _ => simp only [Pat.map, Pat.span]

/-! ## Moving twice -/

mutual

theorem Expr.map_map : ∀ e : Expr, (e.map f).map g = e.map (g ∘ f)
  | .ident _ => by simp [Expr.map]
  | .number _ => by simp [Expr.map]
  | .literal _ => by simp [Expr.map]
  | .array _ elements => by simp [Expr.map, mapArgs_map elements]
  | .object _ properties => by simp [Expr.map, mapProperties_map properties]
  | .fn _ _ x => by simp [Expr.map, Func.map_map x]
  | .cls _ _ c => by simp [Expr.map, Class.map_map c]
  | .arrow _ params body => by simp [Expr.map, mapPats_map params, Stmt.map_map body]
  | .assign _ _ target value => by simp [Expr.map, Pat.map_map target, Expr.map_map value]
  | .update _ argument => by simp [Expr.map, Expr.map_map argument]
  | .unary _ _ argument => by simp [Expr.map, Expr.map_map argument]
  | .binary _ _ left right => by simp [Expr.map, Expr.map_map left, Expr.map_map right]
  | .paren _ inner => by simp [Expr.map, Expr.map_map inner]
  | .call _ callee arguments types => by
    simp [Expr.map, Expr.map_map callee, mapArgs_map arguments, mapExprs_map types]
  | .compound _ _ parts => by simp [Expr.map, mapExprs_map parts]

theorem mapExprs_map : ∀ es : List Expr, mapExprs g (mapExprs f es) = mapExprs (g ∘ f) es
  | [] => by simp [mapExprs]
  | e :: es => by simp [mapExprs, Expr.map_map e, mapExprs_map es]

theorem Arg.map_map : ∀ a : Arg, (a.map f).map g = a.map (g ∘ f)
  | .item e => by simp [Arg.map, Expr.map_map e]
  | .spread _ e => by simp [Arg.map, Expr.map_map e]
  | .hole => by simp [Arg.map]

theorem mapArgs_map : ∀ as : List Arg, mapArgs g (mapArgs f as) = mapArgs (g ∘ f) as
  | [] => by simp [mapArgs]
  | a :: as => by simp [mapArgs, Arg.map_map a, mapArgs_map as]

theorem Key.map_map : ∀ k : Key, (k.map f).map g = k.map (g ∘ f)
  | .fixed _ => by simp [Key.map]
  | .computed e => by simp [Key.map, Expr.map_map e]

theorem Property.map_map : ∀ p : Property, (p.map f).map g = p.map (g ∘ f)
  | .shorthand _ => by simp [Property.map]
  | .shorthandDefault _ value => by simp [Property.map, Expr.map_map value]
  | .keyValue key value => by simp [Property.map, Key.map_map key, Expr.map_map value]
  | .spread _ e => by simp [Property.map, Expr.map_map e]
  | .method _ key x => by simp [Property.map, Key.map_map key, Func.map_map x]
  | .getter _ key types body => by
    simp [Property.map, Key.map_map key, mapExprs_map types, mapStmts_map body]
  | .setter _ key param body => by
    simp [Property.map, Key.map_map key, Pat.map_map param, mapStmts_map body]

theorem mapProperties_map :
    ∀ ps : List Property, mapProperties g (mapProperties f ps) = mapProperties (g ∘ f) ps
  | [] => by simp [mapProperties]
  | p :: ps => by simp [mapProperties, Property.map_map p, mapProperties_map ps]

theorem Pat.map_map : ∀ p : Pat, (p.map f).map g = p.map (g ∘ f)
  | .ident _ _ => by simp [Pat.map]
  | .array _ elements => by simp [Pat.map, mapPats_map elements]
  | .rest _ argument => by simp [Pat.map, Pat.map_map argument]
  | .object _ properties => by simp [Pat.map, mapPatProperties_map properties]
  | .withDefault _ left right => by simp [Pat.map, Pat.map_map left, Expr.map_map right]
  | .expr e => by simp [Pat.map, Expr.map_map e]
  | .hole => by simp [Pat.map]

theorem mapPats_map : ∀ ps : List Pat, mapPats g (mapPats f ps) = mapPats (g ∘ f) ps
  | [] => by simp [mapPats]
  | p :: ps => by simp [mapPats, Pat.map_map p, mapPats_map ps]

theorem PatProperty.map_map : ∀ p : PatProperty, (p.map f).map g = p.map (g ∘ f)
  | .keyValue key value => by simp [PatProperty.map, Key.map_map key, Pat.map_map value]
  | .shorthand _ => by simp [PatProperty.map]
  | .shorthandDefault _ value => by simp [PatProperty.map, Expr.map_map value]
  | .rest argument => by simp [PatProperty.map, Pat.map_map argument]

theorem mapPatProperties_map :
    ∀ ps : List PatProperty, mapPatProperties g (mapPatProperties f ps) = mapPatProperties (g ∘ f) ps
  | [] => by simp [mapPatProperties]
  | p :: ps => by simp [mapPatProperties, PatProperty.map_map p, mapPatProperties_map ps]

theorem Func.map_map : ∀ x : Func, (x.map f).map g = x.map (g ∘ f)
  | .mk params body => by simp [Func.map, mapPats_map params, mapStmts_map body]

theorem Class.map_map : ∀ c : Class, (c.map f).map g = c.map (g ∘ f)
  | .mk heritage members => by simp [Class.map, mapExprs_map heritage, mapMembers_map members]

theorem Member.map_map : ∀ m : Member, (m.map f).map g = m.map (g ∘ f)
  | .constructor params body => by simp [Member.map, mapPats_map params, mapStmts_map body]
  | .method key x => by simp [Member.map, Key.map_map key, Func.map_map x]
  | .field key parts => by simp [Member.map, Key.map_map key, mapExprs_map parts]
  | .staticBlock body => by simp [Member.map, mapStmts_map body]
  | .types parts => by simp [Member.map, mapExprs_map parts]

theorem mapMembers_map :
    ∀ ms : List Member, mapMembers g (mapMembers f ms) = mapMembers (g ∘ f) ms
  | [] => by simp [mapMembers]
  | m :: ms => by simp [mapMembers, Member.map_map m, mapMembers_map ms]

theorem Declarator.map_map : ∀ d : Declarator, (d.map f).map g = d.map (g ∘ f)
  | .mk name init => by simp [Declarator.map, Pat.map_map name, mapExprs_map init]

theorem mapDeclarators_map :
    ∀ ds : List Declarator, mapDeclarators g (mapDeclarators f ds) = mapDeclarators (g ∘ f) ds
  | [] => by simp [mapDeclarators]
  | d :: ds => by simp [mapDeclarators, Declarator.map_map d, mapDeclarators_map ds]

theorem ForHead.map_map : ∀ x : ForHead, (x.map f).map g = x.map (g ∘ f)
  | .declaration _ declarators => by simp [ForHead.map, mapDeclarators_map declarators]
  | .target p => by simp [ForHead.map, Pat.map_map p]

theorem Stmt.map_map : ∀ x : Stmt, (x.map f).map g = x.map (g ∘ f)
  | .expr _ e => by simp [Stmt.map, Expr.map_map e]
  | .plain _ _ exprs body => by simp [Stmt.map, mapExprs_map exprs, mapStmts_map body]
  | .block _ body => by simp [Stmt.map, mapStmts_map body]
  | .tryCatch _ body param handler finalizer => by
    simp [Stmt.map, mapStmts_map body, mapPats_map param, mapStmts_map handler,
      mapStmts_map finalizer]
  | .forLoop _ init exprs body => by
    simp [Stmt.map, mapStmts_map init, mapExprs_map exprs, Stmt.map_map body]
  | .forEach _ _ head right body => by
    simp [Stmt.map, ForHead.map_map head, Expr.map_map right, Stmt.map_map body]
  | .varDecl _ _ declarators => by simp [Stmt.map, mapDeclarators_map declarators]
  | .fnDecl _ _ x => by simp [Stmt.map, Func.map_map x]
  | .classDecl _ _ c => by simp [Stmt.map, Class.map_map c]

theorem mapStmts_map : ∀ xs : List Stmt, mapStmts g (mapStmts f xs) = mapStmts (g ∘ f) xs
  | [] => by simp [mapStmts]
  | x :: xs => by simp [mapStmts, Stmt.map_map x, mapStmts_map xs]

end

/-! ## Spans -/

mutual

theorem Expr.spans_map : ∀ e : Expr, (e.map f).spans = e.spans.map (Span.map f)
  | .ident _ => by simp [Expr.map, Expr.spans]
  | .number _ => by simp [Expr.map, Expr.spans]
  | .literal _ => by simp [Expr.map, Expr.spans]
  | .array _ elements => by simp [Expr.map, Expr.spans, argsSpans_map elements]
  | .object _ properties => by simp [Expr.map, Expr.spans, propertiesSpans_map properties]
  | .fn _ _ x => by simp [Expr.map, Expr.spans, Func.spans_map x]
  | .cls _ _ c => by simp [Expr.map, Expr.spans, Class.spans_map c]
  | .arrow _ params body => by simp [Expr.map, Expr.spans, patsSpans_map params, Stmt.spans_map body]
  | .assign _ _ target value => by
    simp [Expr.map, Expr.spans, Pat.spans_map target, Expr.spans_map value]
  | .update _ argument => by simp [Expr.map, Expr.spans, Expr.spans_map argument]
  | .unary _ _ argument => by simp [Expr.map, Expr.spans, Expr.spans_map argument]
  | .binary _ _ left right => by
    simp [Expr.map, Expr.spans, Expr.spans_map left, Expr.spans_map right]
  | .paren _ inner => by simp [Expr.map, Expr.spans, Expr.spans_map inner]
  | .call _ callee arguments types => by
    simp [Expr.map, Expr.spans, Expr.spans_map callee, argsSpans_map arguments,
      exprsSpans_map types]
  | .compound _ _ parts => by simp [Expr.map, Expr.spans, exprsSpans_map parts]

theorem exprsSpans_map :
    ∀ es : List Expr, exprsSpans (mapExprs f es) = (exprsSpans es).map (Span.map f)
  | [] => by simp [mapExprs, exprsSpans]
  | e :: es => by simp [mapExprs, exprsSpans, Expr.spans_map e, exprsSpans_map es]

theorem Arg.spans_map : ∀ a : Arg, (a.map f).spans = a.spans.map (Span.map f)
  | .item e => by simp [Arg.map, Arg.spans, Expr.spans_map e]
  | .spread _ e => by simp [Arg.map, Arg.spans, Expr.spans_map e]
  | .hole => by simp [Arg.map, Arg.spans]

theorem argsSpans_map :
    ∀ as : List Arg, argsSpans (mapArgs f as) = (argsSpans as).map (Span.map f)
  | [] => by simp [mapArgs, argsSpans]
  | a :: as => by simp [mapArgs, argsSpans, Arg.spans_map a, argsSpans_map as]

theorem Key.spans_map : ∀ k : Key, (k.map f).spans = k.spans.map (Span.map f)
  | .fixed _ => by simp [Key.map, Key.spans]
  | .computed e => by simp [Key.map, Key.spans, Expr.spans_map e]

theorem Property.spans_map : ∀ p : Property, (p.map f).spans = p.spans.map (Span.map f)
  | .shorthand _ => by simp [Property.map, Property.spans]
  | .shorthandDefault _ value => by simp [Property.map, Property.spans, Expr.spans_map value]
  | .keyValue key value => by
    simp [Property.map, Property.spans, Key.spans_map key, Expr.spans_map value]
  | .spread _ e => by simp [Property.map, Property.spans, Expr.spans_map e]
  | .method _ key x => by simp [Property.map, Property.spans, Key.spans_map key, Func.spans_map x]
  | .getter _ key types body => by
    simp [Property.map, Property.spans, Key.spans_map key, exprsSpans_map types,
      stmtsSpans_map body]
  | .setter _ key param body => by
    simp [Property.map, Property.spans, Key.spans_map key, Pat.spans_map param, stmtsSpans_map body]

theorem propertiesSpans_map :
    ∀ ps : List Property, propertiesSpans (mapProperties f ps) = (propertiesSpans ps).map (Span.map f)
  | [] => by simp [mapProperties, propertiesSpans]
  | p :: ps => by simp [mapProperties, propertiesSpans, Property.spans_map p, propertiesSpans_map ps]

theorem Pat.spans_map : ∀ p : Pat, (p.map f).spans = p.spans.map (Span.map f)
  | .ident _ _ => by simp [Pat.map, Pat.spans]
  | .array _ elements => by simp [Pat.map, Pat.spans, patsSpans_map elements]
  | .rest _ argument => by simp [Pat.map, Pat.spans, Pat.spans_map argument]
  | .object _ properties => by simp [Pat.map, Pat.spans, patPropertiesSpans_map properties]
  | .withDefault _ left right => by
    simp [Pat.map, Pat.spans, Pat.spans_map left, Expr.spans_map right]
  | .expr e => by simp [Pat.map, Pat.spans, Expr.spans_map e]
  | .hole => by simp [Pat.map, Pat.spans]

theorem patsSpans_map :
    ∀ ps : List Pat, patsSpans (mapPats f ps) = (patsSpans ps).map (Span.map f)
  | [] => by simp [mapPats, patsSpans]
  | p :: ps => by simp [mapPats, patsSpans, Pat.spans_map p, patsSpans_map ps]

theorem PatProperty.spans_map : ∀ p : PatProperty, (p.map f).spans = p.spans.map (Span.map f)
  | .keyValue key value => by
    simp [PatProperty.map, PatProperty.spans, Key.spans_map key, Pat.spans_map value]
  | .shorthand _ => by simp [PatProperty.map, PatProperty.spans]
  | .shorthandDefault _ value => by simp [PatProperty.map, PatProperty.spans, Expr.spans_map value]
  | .rest argument => by simp [PatProperty.map, PatProperty.spans, Pat.spans_map argument]

theorem patPropertiesSpans_map :
    ∀ ps : List PatProperty,
      patPropertiesSpans (mapPatProperties f ps) = (patPropertiesSpans ps).map (Span.map f)
  | [] => by simp [mapPatProperties, patPropertiesSpans]
  | p :: ps => by
    simp [mapPatProperties, patPropertiesSpans, PatProperty.spans_map p, patPropertiesSpans_map ps]

theorem Func.spans_map : ∀ x : Func, (x.map f).spans = x.spans.map (Span.map f)
  | .mk params body => by simp [Func.map, Func.spans, patsSpans_map params, stmtsSpans_map body]

theorem Class.spans_map : ∀ c : Class, (c.map f).spans = c.spans.map (Span.map f)
  | .mk heritage members => by
    simp [Class.map, Class.spans, exprsSpans_map heritage, membersSpans_map members]

theorem Member.spans_map : ∀ m : Member, (m.map f).spans = m.spans.map (Span.map f)
  | .constructor params body => by
    simp [Member.map, Member.spans, patsSpans_map params, stmtsSpans_map body]
  | .method key x => by simp [Member.map, Member.spans, Key.spans_map key, Func.spans_map x]
  | .field key parts => by simp [Member.map, Member.spans, Key.spans_map key, exprsSpans_map parts]
  | .staticBlock body => by simp [Member.map, Member.spans, stmtsSpans_map body]
  | .types parts => by simp [Member.map, Member.spans, exprsSpans_map parts]

theorem membersSpans_map :
    ∀ ms : List Member, membersSpans (mapMembers f ms) = (membersSpans ms).map (Span.map f)
  | [] => by simp [mapMembers, membersSpans]
  | m :: ms => by simp [mapMembers, membersSpans, Member.spans_map m, membersSpans_map ms]

theorem Declarator.spans_map : ∀ d : Declarator, (d.map f).spans = d.spans.map (Span.map f)
  | .mk name init => by
    simp [Declarator.map, Declarator.spans, Pat.spans_map name, exprsSpans_map init]

theorem declaratorsSpans_map :
    ∀ ds : List Declarator,
      declaratorsSpans (mapDeclarators f ds) = (declaratorsSpans ds).map (Span.map f)
  | [] => by simp [mapDeclarators, declaratorsSpans]
  | d :: ds => by
    simp [mapDeclarators, declaratorsSpans, Declarator.spans_map d, declaratorsSpans_map ds]

theorem ForHead.spans_map : ∀ x : ForHead, (x.map f).spans = x.spans.map (Span.map f)
  | .declaration _ declarators => by
    simp [ForHead.map, ForHead.spans, declaratorsSpans_map declarators]
  | .target p => by simp [ForHead.map, ForHead.spans, Pat.spans_map p]

theorem Stmt.spans_map : ∀ x : Stmt, (x.map f).spans = x.spans.map (Span.map f)
  | .expr _ e => by simp [Stmt.map, Stmt.spans, Expr.spans_map e]
  | .plain _ _ exprs body => by simp [Stmt.map, Stmt.spans, exprsSpans_map exprs, stmtsSpans_map body]
  | .block _ body => by simp [Stmt.map, Stmt.spans, stmtsSpans_map body]
  | .tryCatch _ body param handler finalizer => by
    simp [Stmt.map, Stmt.spans, stmtsSpans_map body, patsSpans_map param, stmtsSpans_map handler,
      stmtsSpans_map finalizer]
  | .forLoop _ init exprs body => by
    simp [Stmt.map, Stmt.spans, stmtsSpans_map init, exprsSpans_map exprs, Stmt.spans_map body]
  | .forEach _ _ head right body => by
    simp [Stmt.map, Stmt.spans, ForHead.spans_map head, Expr.spans_map right, Stmt.spans_map body]
  | .varDecl _ _ declarators => by simp [Stmt.map, Stmt.spans, declaratorsSpans_map declarators]
  | .fnDecl _ _ x => by simp [Stmt.map, Stmt.spans, Func.spans_map x]
  | .classDecl _ _ c => by simp [Stmt.map, Stmt.spans, Class.spans_map c]

theorem stmtsSpans_map :
    ∀ xs : List Stmt, stmtsSpans (mapStmts f xs) = (stmtsSpans xs).map (Span.map f)
  | [] => by simp [mapStmts, stmtsSpans]
  | x :: xs => by simp [mapStmts, stmtsSpans, Stmt.spans_map x, stmtsSpans_map xs]

end

/-! ## Identifiers -/

section

variable {f P} {Q : Ident → Prop} (hPQ : ∀ id, P id → Q (id.map f))
include hPQ

set_option linter.unusedSectionVars false in
mutual

theorem Expr.all_map : ∀ e : Expr, e.All P → (e.map f).All Q
  | .ident _ => by simpa only [Expr.map, Expr.All] using hPQ _
  | .number _ => by simp [Expr.map, Expr.All]
  | .literal _ => by simp [Expr.map, Expr.All]
  | .array _ elements => by simpa only [Expr.map, Expr.All] using argsAll_map elements
  | .object _ properties => by simpa only [Expr.map, Expr.All] using propertiesAll_map properties
  | .fn _ _ x => by simpa only [Expr.map, Expr.All] using Func.all_map x
  | .cls _ _ c => by simpa only [Expr.map, Expr.All] using Class.all_map c
  | .arrow _ params body => by
    simpa only [Expr.map, Expr.All] using And.imp (patsAll_map params) (Stmt.all_map body)
  | .assign _ _ target value => by
    simpa only [Expr.map, Expr.All] using And.imp (Pat.all_map target) (Expr.all_map value)
  | .update _ argument => by simpa only [Expr.map, Expr.All] using Expr.all_map argument
  | .unary _ _ argument => by simpa only [Expr.map, Expr.All] using Expr.all_map argument
  | .binary _ _ left right => by
    simpa only [Expr.map, Expr.All] using And.imp (Expr.all_map left) (Expr.all_map right)
  | .paren _ inner => by simpa only [Expr.map, Expr.All] using Expr.all_map inner
  | .call _ callee arguments types => by
    simpa only [Expr.map, Expr.All] using
      And.imp (Expr.all_map callee) (And.imp (argsAll_map arguments) (exprsAll_map types))
  | .compound _ _ parts => by simpa only [Expr.map, Expr.All] using exprsAll_map parts

theorem exprsAll_map :
    ∀ es : List Expr, exprsAll P es → exprsAll Q (mapExprs f es)
  | [] => by simp [mapExprs, exprsAll]
  | e :: es => by simpa only [mapExprs, exprsAll] using And.imp (Expr.all_map e) (exprsAll_map es)

theorem Arg.all_map : ∀ a : Arg, a.All P → (a.map f).All Q
  | .item e => by simpa only [Arg.map, Arg.All] using Expr.all_map e
  | .spread _ e => by simpa only [Arg.map, Arg.All] using Expr.all_map e
  | .hole => by simp [Arg.map, Arg.All]

theorem argsAll_map :
    ∀ as : List Arg, argsAll P as → argsAll Q (mapArgs f as)
  | [] => by simp [mapArgs, argsAll]
  | a :: as => by simpa only [mapArgs, argsAll] using And.imp (Arg.all_map a) (argsAll_map as)

theorem Key.all_map : ∀ k : Key, k.All P → (k.map f).All Q
  | .fixed _ => by simp [Key.map, Key.All]
  | .computed e => by simpa only [Key.map, Key.All] using Expr.all_map e

theorem Property.all_map : ∀ p : Property, p.All P → (p.map f).All Q
  | .shorthand _ => by simpa only [Property.map, Property.All] using hPQ _
  | .shorthandDefault _ value => by
    simpa only [Property.map, Property.All] using And.imp (hPQ _) (Expr.all_map value)
  | .keyValue key value => by
    simpa only [Property.map, Property.All] using And.imp (Key.all_map key) (Expr.all_map value)
  | .spread _ e => by simpa only [Property.map, Property.All] using Expr.all_map e
  | .method _ key x => by
    simpa only [Property.map, Property.All] using And.imp (Key.all_map key) (Func.all_map x)
  | .getter _ key types body => by
    simpa only [Property.map, Property.All] using
      And.imp (Key.all_map key) (And.imp (exprsAll_map types) (stmtsAll_map body))
  | .setter _ key param body => by
    simpa only [Property.map, Property.All] using
      And.imp (Key.all_map key) (And.imp (Pat.all_map param) (stmtsAll_map body))

theorem propertiesAll_map :
    ∀ ps : List Property, propertiesAll P ps → propertiesAll Q (mapProperties f ps)
  | [] => by simp [mapProperties, propertiesAll]
  | p :: ps => by
    simpa only [mapProperties, propertiesAll] using
      And.imp (Property.all_map p) (propertiesAll_map ps)

theorem Pat.all_map : ∀ p : Pat, p.All P → (p.map f).All Q
  | .ident _ _ => by simpa only [Pat.map, Pat.All] using hPQ _
  | .array _ elements => by simpa only [Pat.map, Pat.All] using patsAll_map elements
  | .rest _ argument => by simpa only [Pat.map, Pat.All] using Pat.all_map argument
  | .object _ properties => by simpa only [Pat.map, Pat.All] using patPropertiesAll_map properties
  | .withDefault _ left right => by
    simpa only [Pat.map, Pat.All] using And.imp (Pat.all_map left) (Expr.all_map right)
  | .expr e => by simpa only [Pat.map, Pat.All] using Expr.all_map e
  | .hole => by simp [Pat.map, Pat.All]

theorem patsAll_map :
    ∀ ps : List Pat, patsAll P ps → patsAll Q (mapPats f ps)
  | [] => by simp [mapPats, patsAll]
  | p :: ps => by simpa only [mapPats, patsAll] using And.imp (Pat.all_map p) (patsAll_map ps)

theorem PatProperty.all_map : ∀ p : PatProperty, p.All P → (p.map f).All Q
  | .keyValue key value => by
    simpa only [PatProperty.map, PatProperty.All] using
      And.imp (Key.all_map key) (Pat.all_map value)
  | .shorthand _ => by simpa only [PatProperty.map, PatProperty.All] using hPQ _
  | .shorthandDefault _ value => by
    simpa only [PatProperty.map, PatProperty.All] using And.imp (hPQ _) (Expr.all_map value)
  | .rest argument => by simpa only [PatProperty.map, PatProperty.All] using Pat.all_map argument

theorem patPropertiesAll_map :
    ∀ ps : List PatProperty, patPropertiesAll P ps → patPropertiesAll Q (mapPatProperties f ps)
  | [] => by simp [mapPatProperties, patPropertiesAll]
  | p :: ps => by
    simpa only [mapPatProperties, patPropertiesAll] using
      And.imp (PatProperty.all_map p) (patPropertiesAll_map ps)

theorem Func.all_map : ∀ x : Func, x.All P → (x.map f).All Q
  | .mk params body => by
    simpa only [Func.map, Func.All] using And.imp (patsAll_map params) (stmtsAll_map body)

theorem Class.all_map : ∀ c : Class, c.All P → (c.map f).All Q
  | .mk heritage members => by
    simpa only [Class.map, Class.All] using And.imp (exprsAll_map heritage) (membersAll_map members)

theorem Member.all_map : ∀ m : Member, m.All P → (m.map f).All Q
  | .constructor params body => by
    simpa only [Member.map, Member.All] using And.imp (patsAll_map params) (stmtsAll_map body)
  | .method key x => by
    simpa only [Member.map, Member.All] using And.imp (Key.all_map key) (Func.all_map x)
  | .field key parts => by
    simpa only [Member.map, Member.All] using And.imp (Key.all_map key) (exprsAll_map parts)
  | .staticBlock body => by simpa only [Member.map, Member.All] using stmtsAll_map body
  | .types parts => by simpa only [Member.map, Member.All] using exprsAll_map parts

theorem membersAll_map :
    ∀ ms : List Member, membersAll P ms → membersAll Q (mapMembers f ms)
  | [] => by simp [mapMembers, membersAll]
  | m :: ms => by
    simpa only [mapMembers, membersAll] using And.imp (Member.all_map m) (membersAll_map ms)

theorem Declarator.all_map : ∀ d : Declarator, d.All P → (d.map f).All Q
  | .mk name init => by
    simpa only [Declarator.map, Declarator.All] using And.imp (Pat.all_map name) (exprsAll_map init)

theorem declaratorsAll_map :
    ∀ ds : List Declarator, declaratorsAll P ds → declaratorsAll Q (mapDeclarators f ds)
  | [] => by simp [mapDeclarators, declaratorsAll]
  | d :: ds => by
    simpa only [mapDeclarators, declaratorsAll] using
      And.imp (Declarator.all_map d) (declaratorsAll_map ds)

theorem ForHead.all_map : ∀ x : ForHead, x.All P → (x.map f).All Q
  | .declaration _ declarators => by
    simpa only [ForHead.map, ForHead.All] using declaratorsAll_map declarators
  | .target p => by simpa only [ForHead.map, ForHead.All] using Pat.all_map p

theorem Stmt.all_map : ∀ x : Stmt, x.All P → (x.map f).All Q
  | .expr _ e => by simpa only [Stmt.map, Stmt.All] using Expr.all_map e
  | .plain _ _ exprs body => by
    simpa only [Stmt.map, Stmt.All] using And.imp (exprsAll_map exprs) (stmtsAll_map body)
  | .block _ body => by simpa only [Stmt.map, Stmt.All] using stmtsAll_map body
  | .tryCatch _ body param handler finalizer => by
    simpa only [Stmt.map, Stmt.All] using
      And.imp (stmtsAll_map body)
        (And.imp (patsAll_map param) (And.imp (stmtsAll_map handler) (stmtsAll_map finalizer)))
  | .forLoop _ init exprs body => by
    simpa only [Stmt.map, Stmt.All] using
      And.imp (stmtsAll_map init) (And.imp (exprsAll_map exprs) (Stmt.all_map body))
  | .forEach _ _ head right body => by
    simpa only [Stmt.map, Stmt.All] using
      And.imp (ForHead.all_map head) (And.imp (Expr.all_map right) (Stmt.all_map body))
  | .varDecl _ _ declarators => by
    simpa only [Stmt.map, Stmt.All] using declaratorsAll_map declarators
  | .fnDecl _ _ x => by simpa only [Stmt.map, Stmt.All] using Func.all_map x
  | .classDecl _ _ c => by simpa only [Stmt.map, Stmt.All] using Class.all_map c

theorem stmtsAll_map :
    ∀ xs : List Stmt, stmtsAll P xs → stmtsAll Q (mapStmts f xs)
  | [] => by simp [mapStmts, stmtsAll]
  | x :: xs => by simpa only [mapStmts, stmtsAll] using And.imp (Stmt.all_map x) (stmtsAll_map xs)

end

end

/-! ## The names that patterns bind -/

mutual

theorem Pat.bound_map : ∀ p : Pat, (p.map f).bound = p.bound.map (Ident.map f)
  | .ident _ _ => by simp [Pat.map, Pat.bound]
  | .array _ elements => by simp [Pat.map, Pat.bound, boundByPats_map elements]
  | .rest _ argument => by simp [Pat.map, Pat.bound, Pat.bound_map argument]
  | .object _ properties => by simp [Pat.map, Pat.bound, boundByProperties_map properties]
  | .withDefault _ left _ => by simp [Pat.map, Pat.bound, Pat.bound_map left]
  | .expr _ => by simp [Pat.map, Pat.bound]
  | .hole => by simp [Pat.map, Pat.bound]

theorem boundByPats_map :
    ∀ ps : List Pat, boundByPats (mapPats f ps) = (boundByPats ps).map (Ident.map f)
  | [] => by simp [mapPats, boundByPats]
  | p :: ps => by simp [mapPats, boundByPats, Pat.bound_map p, boundByPats_map ps]

theorem PatProperty.bound_map : ∀ p : PatProperty, (p.map f).bound = p.bound.map (Ident.map f)
  | .keyValue _ value => by simp [PatProperty.map, PatProperty.bound, Pat.bound_map value]
  | .shorthand _ => by simp [PatProperty.map, PatProperty.bound]
  | .shorthandDefault _ _ => by simp [PatProperty.map, PatProperty.bound]
  | .rest argument => by simp [PatProperty.map, PatProperty.bound, Pat.bound_map argument]

theorem boundByProperties_map :
    ∀ ps : List PatProperty,
      boundByProperties (mapPatProperties f ps) = (boundByProperties ps).map (Ident.map f)
  | [] => by simp [mapPatProperties, boundByProperties]
  | p :: ps => by
    simp [mapPatProperties, boundByProperties, PatProperty.bound_map p, boundByProperties_map ps]

end

/-! ## Effects -/

/-- The use of a name at another place. -/
def Use.map (u : Use) : Use := ⟨u.id.map f, u.mode⟩

namespace Effect

/-- The effect with the places of its uses moved. -/
def map (e : Effect) : Effect := ⟨e.uses.map (Use.map f), e.names⟩

@[simp] theorem map_nothing : map f {} = {} := rfl

@[simp] theorem map_ofUse (id : Ident) (mode : ReferenceMode) :
    (ofUse id mode).map f = ofUse (id.map f) mode := rfl

@[simp] theorem map_ofName (isVar : Bool) (name : String) :
    (ofName isVar name).map f = ofName isVar name := rfl

@[simp] theorem ofOwnName_map (name : Option Ident) :
    ofOwnName (name.map (Ident.map f)) = (ofOwnName name).map f := by
  cases name <;> rfl

@[simp] theorem map_andThen (e e' : Effect) :
    (e.andThen e').map f = (e.map f).andThen (e'.map f) := by
  simp [map, andThen]

/-- What a scope keeps to itself has to do with names only. -/
@[simp] theorem map_scope (e : Effect) (isFunction : Bool) :
    (e.scope isFunction).map f = (e.map f).scope isFunction := by
  simp only [map, scope, hidden, List.filter_map]
  rfl

end Effect

mutual

theorem Expr.effect_map : ∀ e : Expr, (e.map f).effect = e.effect.map f
  | .ident _ => by simp [Expr.map, Expr.effect]
  | .number _ => by simp [Expr.map, Expr.effect]
  | .literal _ => by simp [Expr.map, Expr.effect]
  | .array _ elements => by simp [Expr.map, Expr.effect, argsEffect_map elements]
  | .object _ properties => by simp [Expr.map, Expr.effect, propertiesEffect_map properties]
  | .fn _ _ x => by simp [Expr.map, Expr.effect, Func.effect_map x]
  | .cls _ _ c => by simp [Expr.map, Expr.effect, Class.effect_map c]
  | .arrow _ params body => by
    simp [Expr.map, Expr.effect, patsBindEffect_map false params, Stmt.effect_map body]
  | .assign _ op target value => by
    rw [Expr.map, Expr.effect.eq_def, Expr.effect.eq_def]
    have htarget := Pat.writeEffect_map target
    cases target with
    | ident _ _ => simp [Pat.map, Expr.effect_map value]
    | _ => simpa [Pat.map, Expr.effect_map value] using congrArg (·.andThen (value.effect.map f)) htarget
  | .update _ argument => by
    rw [Expr.map, Expr.effect.eq_def, Expr.effect.eq_def]
    have hargument := Expr.effect_map argument
    cases argument with
    | ident _ => simp [Expr.map]
    | _ => simpa only [Expr.map] using hargument
  | .unary _ _ argument => by simp [Expr.map, Expr.effect, Expr.effect_map argument]
  | .binary _ _ left right => by
    simp [Expr.map, Expr.effect, Expr.effect_map left, Expr.effect_map right]
  | .paren _ inner => by simp [Expr.map, Expr.effect, Expr.effect_map inner]
  | .call _ callee arguments types => by
    simp [Expr.map, Expr.effect, Expr.effect_map callee, argsEffect_map arguments,
      exprsEffect_map types]
  | .compound _ _ parts => by simp [Expr.map, Expr.effect, exprsEffect_map parts]

theorem exprsEffect_map : ∀ es : List Expr, exprsEffect (mapExprs f es) = (exprsEffect es).map f
  | [] => by simp [mapExprs, exprsEffect]
  | e :: es => by simp [mapExprs, exprsEffect, Expr.effect_map e, exprsEffect_map es]

theorem Arg.effect_map : ∀ a : Arg, (a.map f).effect = a.effect.map f
  | .item e => by simp [Arg.map, Arg.effect, Expr.effect_map e]
  | .spread _ e => by simp [Arg.map, Arg.effect, Expr.effect_map e]
  | .hole => by simp [Arg.map, Arg.effect]

theorem argsEffect_map : ∀ as : List Arg, argsEffect (mapArgs f as) = (argsEffect as).map f
  | [] => by simp [mapArgs, argsEffect]
  | a :: as => by simp [mapArgs, argsEffect, Arg.effect_map a, argsEffect_map as]

theorem Key.effect_map : ∀ k : Key, (k.map f).effect = k.effect.map f
  | .fixed _ => by simp [Key.map, Key.effect]
  | .computed e => by simp [Key.map, Key.effect, Expr.effect_map e]

theorem Property.effect_map : ∀ p : Property, (p.map f).effect = p.effect.map f
  | .shorthand _ => by simp [Property.map, Property.effect]
  | .shorthandDefault _ value => by simp [Property.map, Property.effect, Expr.effect_map value]
  | .keyValue key value => by
    simp [Property.map, Property.effect, Key.effect_map key, Expr.effect_map value]
  | .spread _ e => by simp [Property.map, Property.effect, Expr.effect_map e]
  | .method _ key x => by simp [Property.map, Property.effect, Key.effect_map key, Func.effect_map x]
  | .getter _ key types body => by
    simp [Property.map, Property.effect, Key.effect_map key, exprsEffect_map types,
      stmtsEffect_map body]
  | .setter _ key param body => by
    simp [Property.map, Property.effect, Key.effect_map key, Pat.bindEffect_map false param,
      stmtsEffect_map body]

theorem propertiesEffect_map :
    ∀ ps : List Property, propertiesEffect (mapProperties f ps) = (propertiesEffect ps).map f
  | [] => by simp [mapProperties, propertiesEffect]
  | p :: ps => by
    simp [mapProperties, propertiesEffect, Property.effect_map p, propertiesEffect_map ps]

theorem Pat.bindEffect_map (isVar : Bool) :
    ∀ p : Pat, (p.map f).bindEffect isVar = (p.bindEffect isVar).map f
  | .ident _ _ => by simp [Pat.map, Pat.bindEffect, Ident.map]
  | .array _ elements => by simp [Pat.map, Pat.bindEffect, patsBindEffect_map isVar elements]
  | .rest _ argument => by simp [Pat.map, Pat.bindEffect, Pat.bindEffect_map isVar argument]
  | .object _ properties => by
    simp [Pat.map, Pat.bindEffect, patPropertiesBindEffect_map isVar properties]
  | .withDefault _ left right => by
    simp [Pat.map, Pat.bindEffect, Pat.bindEffect_map isVar left, Expr.effect_map right]
  | .expr e => by simp [Pat.map, Pat.bindEffect, Expr.effect_map e]
  | .hole => by simp [Pat.map, Pat.bindEffect]

theorem patsBindEffect_map (isVar : Bool) :
    ∀ ps : List Pat, patsBindEffect isVar (mapPats f ps) = (patsBindEffect isVar ps).map f
  | [] => by simp [mapPats, patsBindEffect]
  | p :: ps => by
    simp [mapPats, patsBindEffect, Pat.bindEffect_map isVar p, patsBindEffect_map isVar ps]

theorem PatProperty.bindEffect_map (isVar : Bool) :
    ∀ p : PatProperty, (p.map f).bindEffect isVar = (p.bindEffect isVar).map f
  | .keyValue key value => by
    simp [PatProperty.map, PatProperty.bindEffect, Key.effect_map key,
      Pat.bindEffect_map isVar value]
  | .shorthand _ => by simp [PatProperty.map, PatProperty.bindEffect, Ident.map]
  | .shorthandDefault _ value => by
    simp [PatProperty.map, PatProperty.bindEffect, Ident.map, Expr.effect_map value]
  | .rest argument => by
    simp [PatProperty.map, PatProperty.bindEffect, Pat.bindEffect_map isVar argument]

theorem patPropertiesBindEffect_map (isVar : Bool) :
    ∀ ps : List PatProperty, patPropertiesBindEffect isVar (mapPatProperties f ps) =
      (patPropertiesBindEffect isVar ps).map f
  | [] => by simp [mapPatProperties, patPropertiesBindEffect]
  | p :: ps => by
    simp [mapPatProperties, patPropertiesBindEffect, PatProperty.bindEffect_map isVar p,
      patPropertiesBindEffect_map isVar ps]

theorem Pat.writeEffect_map : ∀ p : Pat, (p.map f).writeEffect = p.writeEffect.map f
  | .ident _ _ => by simp [Pat.map, Pat.writeEffect]
  | .array _ elements => by simp [Pat.map, Pat.writeEffect, patsWriteEffect_map elements]
  | .rest _ argument => by simp [Pat.map, Pat.writeEffect, Pat.writeEffect_map argument]
  | .object _ properties => by
    simp [Pat.map, Pat.writeEffect, patPropertiesWriteEffect_map properties]
  | .withDefault _ left right => by
    simp [Pat.map, Pat.writeEffect, Pat.writeEffect_map left, Expr.effect_map right]
  | .expr e => by
    rw [Pat.map, Pat.writeEffect.eq_def, Pat.writeEffect.eq_def]
    have he := Expr.effect_map e
    cases e with
    | ident _ => simp [Expr.map]
    | _ => simpa only [Expr.map] using he
  | .hole => by simp [Pat.map, Pat.writeEffect]

theorem patsWriteEffect_map :
    ∀ ps : List Pat, patsWriteEffect (mapPats f ps) = (patsWriteEffect ps).map f
  | [] => by simp [mapPats, patsWriteEffect]
  | p :: ps => by simp [mapPats, patsWriteEffect, Pat.writeEffect_map p, patsWriteEffect_map ps]

theorem PatProperty.writeEffect_map :
    ∀ p : PatProperty, (p.map f).writeEffect = p.writeEffect.map f
  | .keyValue key value => by
    simp [PatProperty.map, PatProperty.writeEffect, Key.effect_map key, Pat.writeEffect_map value]
  | .shorthand _ => by simp [PatProperty.map, PatProperty.writeEffect]
  | .shorthandDefault _ value => by
    simp [PatProperty.map, PatProperty.writeEffect, Expr.effect_map value]
  | .rest argument => by simp [PatProperty.map, PatProperty.writeEffect, Pat.writeEffect_map argument]

theorem patPropertiesWriteEffect_map : ∀ ps : List PatProperty,
    patPropertiesWriteEffect (mapPatProperties f ps) = (patPropertiesWriteEffect ps).map f
  | [] => by simp [mapPatProperties, patPropertiesWriteEffect]
  | p :: ps => by
    simp [mapPatProperties, patPropertiesWriteEffect, PatProperty.writeEffect_map p,
      patPropertiesWriteEffect_map ps]

theorem Func.effect_map : ∀ x : Func, (x.map f).effect = x.effect.map f
  | .mk params body => by
    simp [Func.map, Func.effect, patsBindEffect_map false params, stmtsEffect_map body]

theorem Class.effect_map : ∀ c : Class, (c.map f).effect = c.effect.map f
  | .mk heritage members => by
    simp [Class.map, Class.effect, exprsEffect_map heritage, membersEffect_map members]

theorem Member.effect_map : ∀ m : Member, (m.map f).effect = m.effect.map f
  | .constructor params body => by
    simp [Member.map, Member.effect, patsBindEffect_map false params, stmtsEffect_map body]
  | .method key x => by simp [Member.map, Member.effect, Key.effect_map key, Func.effect_map x]
  | .field key parts => by simp [Member.map, Member.effect, Key.effect_map key, exprsEffect_map parts]
  | .staticBlock body => by simp [Member.map, Member.effect, stmtsEffect_map body]
  | .types parts => by simp [Member.map, Member.effect, exprsEffect_map parts]

theorem membersEffect_map :
    ∀ ms : List Member, membersEffect (mapMembers f ms) = (membersEffect ms).map f
  | [] => by simp [mapMembers, membersEffect]
  | m :: ms => by simp [mapMembers, membersEffect, Member.effect_map m, membersEffect_map ms]

theorem Declarator.effect_map (isVar : Bool) :
    ∀ d : Declarator, (d.map f).effect isVar = (d.effect isVar).map f
  | .mk name init => by
    simp [Declarator.map, Declarator.effect, Pat.bindEffect_map isVar name, exprsEffect_map init]

theorem declaratorsEffect_map (isVar : Bool) :
    ∀ ds : List Declarator,
      declaratorsEffect isVar (mapDeclarators f ds) = (declaratorsEffect isVar ds).map f
  | [] => by simp [mapDeclarators, declaratorsEffect]
  | d :: ds => by
    simp [mapDeclarators, declaratorsEffect, Declarator.effect_map isVar d,
      declaratorsEffect_map isVar ds]

theorem ForHead.effect_map : ∀ x : ForHead, (x.map f).effect = x.effect.map f
  | .declaration isVar declarators => by
    simp [ForHead.map, ForHead.effect, declaratorsEffect_map isVar declarators]
  | .target p => by simp [ForHead.map, ForHead.effect, Pat.writeEffect_map p]

theorem Stmt.effect_map : ∀ x : Stmt, (x.map f).effect = x.effect.map f
  | .expr _ e => by simp [Stmt.map, Stmt.effect, Expr.effect_map e]
  | .plain _ _ exprs body => by
    simp [Stmt.map, Stmt.effect, exprsEffect_map exprs, stmtsEffect_map body]
  | .block _ body => by simp [Stmt.map, Stmt.effect, stmtsEffect_map body]
  | .tryCatch _ body param handler finalizer => by
    simp [Stmt.map, Stmt.effect, stmtsEffect_map body, patsBindEffect_map false param,
      stmtsEffect_map handler, stmtsEffect_map finalizer]
  | .forLoop _ init exprs body => by
    simp [Stmt.map, Stmt.effect, stmtsEffect_map init, exprsEffect_map exprs, Stmt.effect_map body]
  | .forEach _ _ head right body => by
    simp [Stmt.map, Stmt.effect, ForHead.effect_map head, Expr.effect_map right,
      Stmt.effect_map body]
  | .varDecl _ isVar declarators => by
    simp [Stmt.map, Stmt.effect, declaratorsEffect_map isVar declarators]
  | .fnDecl _ _ x => by simp [Stmt.map, Stmt.effect, Func.effect_map x, Ident.map]
  | .classDecl _ _ c => by simp [Stmt.map, Stmt.effect, Class.effect_map c, Ident.map]

theorem stmtsEffect_map : ∀ xs : List Stmt, stmtsEffect (mapStmts f xs) = (stmtsEffect xs).map f
  | [] => by simp [mapStmts, stmtsEffect]
  | x :: xs => by simp [mapStmts, stmtsEffect, Stmt.effect_map x, stmtsEffect_map xs]

end

/-! ## References -/

variable {f} {walk walk' : Frames → Frames} {e : Effect}

/-- Uses that leave the outermost scope stay in order when their places do. -/
theorem Acts.finish_map (hf : ∀ i j, f i ≤ f j ↔ i ≤ j) (h : Acts walk e) (h' : Acts walk' (e.map f))
    (names : List String) :
    (walk' (Frames.root names)).finish = (walk (Frames.root names)).finish.map (Use.map f) := by
  rw [h.finish_root, h'.finish_root, List.map_mergeSort ]
  · simp only [Effect.map, List.filter_map, List.map_reverse]
    rfl
  · exact fun a _ b _ => decide_eq_decide.2 (hf ..).symm

theorem Expr.references_map (hf : ∀ i j, f i ≤ f j ↔ i ≤ j) (e : Expr) :
    (e.map f).references = e.references.map (Use.map f) :=
  e.visit_acts.finish_map hf (Expr.effect_map f e ▸ (e.map f).visit_acts) []

theorem filteredReferences_map (hf : ∀ i j, f i ≤ f j ↔ i ≤ j) (head : Expr) (arguments : List Arg) :
    filteredReferences (head.map f) (mapArgs f arguments) =
      (filteredReferences head arguments).map (Use.map f) := by
  have hmoved : Acts (fun fs => visitArgs (mapArgs f arguments) ((head.map f).visit fs))
      ((head.effect.andThen (argsEffect arguments)).map f) := by
    rw [Effect.map_andThen, ← Expr.effect_map, ← argsEffect_map]
    exact (head.map f).visit_acts.andThen (visitArgs_acts _)
  exact (head.visit_acts.andThen (visitArgs_acts arguments)).finish_map hf hmoved []

theorem patReferences_map (hf : ∀ i j, f i ≤ f j ↔ i ≤ j) (pats : List Pat) :
    patReferences (mapPats f pats) = (patReferences pats).map (Use.map f) :=
  (declarePats_acts false pats).finish_map hf
    (patsBindEffect_map f false pats ▸ declarePats_acts false (mapPats f pats)) []

theorem bodyReferences_map (hf : ∀ i j, f i ≤ f j ↔ i ≤ j) (names : List String) (body : List Stmt) :
    bodyReferences names (mapStmts f body) = (bodyReferences names body).map (Use.map f) :=
  (visitStmts_acts body).finish_map hf (stmtsEffect_map f body ▸ visitStmts_acts (mapStmts f body)) names

end TemplateSyntax.Script
