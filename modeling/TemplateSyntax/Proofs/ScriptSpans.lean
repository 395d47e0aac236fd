import TemplateSyntax.Proofs.ScriptIdents

/-! # The spans of a script

All spans that a syntax tree has on record.  Each use of a name that leaves a script, and each name that
a pattern binds, is at one of them. -/

namespace TemplateSyntax.Script

mutual

/-- The spans in an expression. -/
def Expr.spans : Expr → List Span
  | .ident id => [id.span]
  | .number s | .literal s => [s]
  | .array s elements => s :: argsSpans elements
  | .object s properties => s :: propertiesSpans properties
  | .fn s name f => s :: (name.toList.map Ident.span ++ f.spans)
  | .cls s name c => s :: (name.toList.map Ident.span ++ c.spans)
  | .arrow s params body => s :: (patsSpans params ++ body.spans)
  | .assign s _ target value => s :: (target.spans ++ value.spans)
  | .update s argument => s :: argument.spans
  | .unary s _ argument => s :: argument.spans
  | .binary s _ left right => s :: (left.spans ++ right.spans)
  | .paren s inner => s :: inner.spans
  | .call s callee arguments types =>
    s :: (callee.spans ++ argsSpans arguments ++ exprsSpans types)
  | .compound _ s parts => s :: exprsSpans parts

/-- The spans in expressions. -/
def exprsSpans : List Expr → List Span
  | [] => []
  | e :: es => e.spans ++ exprsSpans es

/-- The spans in an argument. -/
def Arg.spans : Arg → List Span
  | .item e => e.spans
  | .spread start e => Span.empty start :: e.spans
  | .hole => []

/-- The spans in arguments. -/
def argsSpans : List Arg → List Span
  | [] => []
  | a :: as => a.spans ++ argsSpans as

/-- The spans in a key. -/
def Key.spans : Key → List Span
  | .fixed s => [s]
  | .computed e => e.spans

/-- The spans in a property of an object. -/
def Property.spans : Property → List Span
  | .shorthand id => [id.span]
  | .shorthandDefault id value => id.span :: value.spans
  | .keyValue key value => key.spans ++ value.spans
  | .spread s e => s :: e.spans
  | .method s key f => s :: (key.spans ++ f.spans)
  | .getter s key types body => s :: (key.spans ++ exprsSpans types ++ stmtsSpans body)
  | .setter s key param body => s :: (key.spans ++ param.spans ++ stmtsSpans body)

/-- The spans in properties of an object. -/
def propertiesSpans : List Property → List Span
  | [] => []
  | p :: ps => p.spans ++ propertiesSpans ps

/-- The spans in a pattern. -/
def Pat.spans : Pat → List Span
  | .ident id s => [id.span, s]
  | .array s elements => s :: patsSpans elements
  | .rest s argument => s :: argument.spans
  | .object s properties => s :: patPropertiesSpans properties
  | .withDefault s left right => s :: (left.spans ++ right.spans)
  | .expr e => e.spans
  | .hole => []

/-- The spans in patterns. -/
def patsSpans : List Pat → List Span
  | [] => []
  | p :: ps => p.spans ++ patsSpans ps

/-- The spans in a property of a pattern. -/
def PatProperty.spans : PatProperty → List Span
  | .keyValue key value => key.spans ++ value.spans
  | .shorthand id => [id.span]
  | .shorthandDefault id value => id.span :: value.spans
  | .rest argument => argument.spans

/-- The spans in properties of a pattern. -/
def patPropertiesSpans : List PatProperty → List Span
  | [] => []
  | p :: ps => p.spans ++ patPropertiesSpans ps

/-- The spans in a function. -/
def Func.spans : Func → List Span
  | .mk params body => patsSpans params ++ stmtsSpans body

/-- The spans in a class. -/
def Class.spans : Class → List Span
  | .mk heritage members => exprsSpans heritage ++ membersSpans members

/-- The spans in a member of a class. -/
def Member.spans : Member → List Span
  | .constructor params body => patsSpans params ++ stmtsSpans body
  | .method key f => key.spans ++ f.spans
  | .field key parts => key.spans ++ exprsSpans parts
  | .staticBlock body => stmtsSpans body
  | .types parts => exprsSpans parts

/-- The spans in members of a class. -/
def membersSpans : List Member → List Span
  | [] => []
  | m :: ms => m.spans ++ membersSpans ms

/-- The spans in a declared pattern and its value. -/
def Declarator.spans : Declarator → List Span
  | .mk name init => name.spans ++ exprsSpans init

/-- The spans in declared patterns and their values. -/
def declaratorsSpans : List Declarator → List Span
  | [] => []
  | d :: ds => d.spans ++ declaratorsSpans ds

/-- The spans in what a loop assigns to. -/
def ForHead.spans : ForHead → List Span
  | .declaration _ declarators => declaratorsSpans declarators
  | .target p => p.spans

/-- The spans in a statement. -/
def Stmt.spans : Stmt → List Span
  | .expr s e => s :: e.spans
  | .plain _ s exprs body => s :: (exprsSpans exprs ++ stmtsSpans body)
  | .block s body => s :: stmtsSpans body
  | .tryCatch s body param handler finalizer =>
    s :: (stmtsSpans body ++ patsSpans param ++ stmtsSpans handler ++ stmtsSpans finalizer)
  | .forLoop s init exprs body => s :: (stmtsSpans init ++ exprsSpans exprs ++ body.spans)
  | .forEach _ s head right body => s :: (head.spans ++ right.spans ++ body.spans)
  | .varDecl s _ declarators => s :: declaratorsSpans declarators
  | .fnDecl s name f => s :: name.span :: f.spans
  | .classDecl s name c => s :: name.span :: c.spans

/-- The spans in statements. -/
def stmtsSpans : List Stmt → List Span
  | [] => []
  | s :: ss => s.spans ++ stmtsSpans ss

end

/-! ## Identifiers -/

variable {S : Span → Prop}

mutual

/-- What holds of all spans in an expression holds of those of its identifiers. -/
theorem Expr.all_of_spans : ∀ e : Expr, (∀ s ∈ e.spans, S s) → e.All fun id => S id.span
  | .ident _, h => by
    rw [Expr.spans, List.forall_mem_singleton] at h
    rwa [Expr.All]
  | .number _, _ | .literal _, _ => by rw [Expr.All]; trivial
  | .array _ elements, h => by
    rw [Expr.spans, List.forall_mem_cons] at h
    rw [Expr.All]
    exact argsAll_of_spans elements h.2
  | .object _ properties, h => by
    rw [Expr.spans, List.forall_mem_cons] at h
    rw [Expr.All]
    exact propertiesAll_of_spans properties h.2
  | .fn _ _ f, h => by
    rw [Expr.spans, List.forall_mem_cons, List.forall_mem_append] at h
    rw [Expr.All]
    exact Func.all_of_spans f h.2.2
  | .cls _ _ c, h => by
    rw [Expr.spans, List.forall_mem_cons, List.forall_mem_append] at h
    rw [Expr.All]
    exact Class.all_of_spans c h.2.2
  | .arrow _ params body, h => by
    rw [Expr.spans, List.forall_mem_cons, List.forall_mem_append] at h
    rw [Expr.All]
    exact ⟨patsAll_of_spans params h.2.1, Stmt.all_of_spans body h.2.2⟩
  | .assign _ _ target value, h => by
    rw [Expr.spans, List.forall_mem_cons, List.forall_mem_append] at h
    rw [Expr.All]
    exact ⟨Pat.all_of_spans target h.2.1, Expr.all_of_spans value h.2.2⟩
  | .update _ argument, h => by
    rw [Expr.spans, List.forall_mem_cons] at h
    rw [Expr.All]
    exact Expr.all_of_spans argument h.2
  | .unary _ _ argument, h => by
    rw [Expr.spans, List.forall_mem_cons] at h
    rw [Expr.All]
    exact Expr.all_of_spans argument h.2
  | .binary _ _ left right, h => by
    rw [Expr.spans, List.forall_mem_cons, List.forall_mem_append] at h
    rw [Expr.All]
    exact ⟨Expr.all_of_spans left h.2.1, Expr.all_of_spans right h.2.2⟩
  | .paren _ inner, h => by
    rw [Expr.spans, List.forall_mem_cons] at h
    rw [Expr.All]
    exact Expr.all_of_spans inner h.2
  | .call _ callee arguments types, h => by
    rw [Expr.spans, List.forall_mem_cons, List.forall_mem_append, List.forall_mem_append] at h
    rw [Expr.All]
    exact ⟨Expr.all_of_spans callee h.2.1.1, argsAll_of_spans arguments h.2.1.2,
      exprsAll_of_spans types h.2.2⟩
  | .compound _ _ parts, h => by
    rw [Expr.spans, List.forall_mem_cons] at h
    rw [Expr.All]
    exact exprsAll_of_spans parts h.2

theorem exprsAll_of_spans :
    ∀ es : List Expr, (∀ s ∈ exprsSpans es, S s) → exprsAll (fun id => S id.span) es
  | [], _ => by rw [exprsAll]; trivial
  | e :: es, h => by
    rw [exprsSpans, List.forall_mem_append] at h
    rw [exprsAll]
    exact ⟨Expr.all_of_spans e h.1, exprsAll_of_spans es h.2⟩

theorem Arg.all_of_spans : ∀ a : Arg, (∀ s ∈ a.spans, S s) → a.All fun id => S id.span
  | .item e, h => by
    rw [Arg.spans] at h
    rw [Arg.All]
    exact Expr.all_of_spans e h
  | .spread _ e, h => by
    rw [Arg.spans, List.forall_mem_cons] at h
    rw [Arg.All]
    exact Expr.all_of_spans e h.2
  | .hole, _ => by rw [Arg.All]; trivial

theorem argsAll_of_spans :
    ∀ as : List Arg, (∀ s ∈ argsSpans as, S s) → argsAll (fun id => S id.span) as
  | [], _ => by rw [argsAll]; trivial
  | a :: as, h => by
    rw [argsSpans, List.forall_mem_append] at h
    rw [argsAll]
    exact ⟨Arg.all_of_spans a h.1, argsAll_of_spans as h.2⟩

theorem Key.all_of_spans : ∀ k : Key, (∀ s ∈ k.spans, S s) → k.All fun id => S id.span
  | .fixed _, _ => by rw [Key.All]; trivial
  | .computed e, h => by
    rw [Key.spans] at h
    rw [Key.All]
    exact Expr.all_of_spans e h

theorem Property.all_of_spans :
    ∀ p : Property, (∀ s ∈ p.spans, S s) → p.All fun id => S id.span
  | .shorthand _, h => by
    rw [Property.spans, List.forall_mem_singleton] at h
    rwa [Property.All]
  | .shorthandDefault _ value, h => by
    rw [Property.spans, List.forall_mem_cons] at h
    rw [Property.All]
    exact ⟨h.1, Expr.all_of_spans value h.2⟩
  | .keyValue key value, h => by
    rw [Property.spans, List.forall_mem_append] at h
    rw [Property.All]
    exact ⟨Key.all_of_spans key h.1, Expr.all_of_spans value h.2⟩
  | .spread _ e, h => by
    rw [Property.spans, List.forall_mem_cons] at h
    rw [Property.All]
    exact Expr.all_of_spans e h.2
  | .method _ key f, h => by
    rw [Property.spans, List.forall_mem_cons, List.forall_mem_append] at h
    rw [Property.All]
    exact ⟨Key.all_of_spans key h.2.1, Func.all_of_spans f h.2.2⟩
  | .getter _ key types body, h => by
    rw [Property.spans, List.forall_mem_cons, List.forall_mem_append, List.forall_mem_append] at h
    rw [Property.All]
    exact ⟨Key.all_of_spans key h.2.1.1, exprsAll_of_spans types h.2.1.2,
      stmtsAll_of_spans body h.2.2⟩
  | .setter _ key param body, h => by
    rw [Property.spans, List.forall_mem_cons, List.forall_mem_append, List.forall_mem_append] at h
    rw [Property.All]
    exact ⟨Key.all_of_spans key h.2.1.1, Pat.all_of_spans param h.2.1.2,
      stmtsAll_of_spans body h.2.2⟩

theorem propertiesAll_of_spans : ∀ ps : List Property, (∀ s ∈ propertiesSpans ps, S s) →
    propertiesAll (fun id => S id.span) ps
  | [], _ => by rw [propertiesAll]; trivial
  | p :: ps, h => by
    rw [propertiesSpans, List.forall_mem_append] at h
    rw [propertiesAll]
    exact ⟨Property.all_of_spans p h.1, propertiesAll_of_spans ps h.2⟩

theorem Pat.all_of_spans : ∀ p : Pat, (∀ s ∈ p.spans, S s) → p.All fun id => S id.span
  | .ident _ _, h => by
    rw [Pat.spans, List.forall_mem_cons] at h
    rw [Pat.All]
    exact h.1
  | .array _ elements, h => by
    rw [Pat.spans, List.forall_mem_cons] at h
    rw [Pat.All]
    exact patsAll_of_spans elements h.2
  | .rest _ argument, h => by
    rw [Pat.spans, List.forall_mem_cons] at h
    rw [Pat.All]
    exact Pat.all_of_spans argument h.2
  | .object _ properties, h => by
    rw [Pat.spans, List.forall_mem_cons] at h
    rw [Pat.All]
    exact patPropertiesAll_of_spans properties h.2
  | .withDefault _ left right, h => by
    rw [Pat.spans, List.forall_mem_cons, List.forall_mem_append] at h
    rw [Pat.All]
    exact ⟨Pat.all_of_spans left h.2.1, Expr.all_of_spans right h.2.2⟩
  | .expr e, h => by
    rw [Pat.spans] at h
    rw [Pat.All]
    exact Expr.all_of_spans e h
  | .hole, _ => by rw [Pat.All]; trivial

theorem patsAll_of_spans :
    ∀ ps : List Pat, (∀ s ∈ patsSpans ps, S s) → patsAll (fun id => S id.span) ps
  | [], _ => by rw [patsAll]; trivial
  | p :: ps, h => by
    rw [patsSpans, List.forall_mem_append] at h
    rw [patsAll]
    exact ⟨Pat.all_of_spans p h.1, patsAll_of_spans ps h.2⟩

theorem PatProperty.all_of_spans :
    ∀ p : PatProperty, (∀ s ∈ p.spans, S s) → p.All fun id => S id.span
  | .keyValue key value, h => by
    rw [PatProperty.spans, List.forall_mem_append] at h
    rw [PatProperty.All]
    exact ⟨Key.all_of_spans key h.1, Pat.all_of_spans value h.2⟩
  | .shorthand _, h => by
    rw [PatProperty.spans, List.forall_mem_singleton] at h
    rwa [PatProperty.All]
  | .shorthandDefault _ value, h => by
    rw [PatProperty.spans, List.forall_mem_cons] at h
    rw [PatProperty.All]
    exact ⟨h.1, Expr.all_of_spans value h.2⟩
  | .rest argument, h => by
    rw [PatProperty.spans] at h
    rw [PatProperty.All]
    exact Pat.all_of_spans argument h

theorem patPropertiesAll_of_spans : ∀ ps : List PatProperty, (∀ s ∈ patPropertiesSpans ps, S s) →
    patPropertiesAll (fun id => S id.span) ps
  | [], _ => by rw [patPropertiesAll]; trivial
  | p :: ps, h => by
    rw [patPropertiesSpans, List.forall_mem_append] at h
    rw [patPropertiesAll]
    exact ⟨PatProperty.all_of_spans p h.1, patPropertiesAll_of_spans ps h.2⟩

theorem Func.all_of_spans : ∀ f : Func, (∀ s ∈ f.spans, S s) → f.All fun id => S id.span
  | .mk params body, h => by
    rw [Func.spans, List.forall_mem_append] at h
    rw [Func.All]
    exact ⟨patsAll_of_spans params h.1, stmtsAll_of_spans body h.2⟩

theorem Class.all_of_spans : ∀ c : Class, (∀ s ∈ c.spans, S s) → c.All fun id => S id.span
  | .mk heritage members, h => by
    rw [Class.spans, List.forall_mem_append] at h
    rw [Class.All]
    exact ⟨exprsAll_of_spans heritage h.1, membersAll_of_spans members h.2⟩

theorem Member.all_of_spans : ∀ m : Member, (∀ s ∈ m.spans, S s) → m.All fun id => S id.span
  | .constructor params body, h => by
    rw [Member.spans, List.forall_mem_append] at h
    rw [Member.All]
    exact ⟨patsAll_of_spans params h.1, stmtsAll_of_spans body h.2⟩
  | .method key f, h => by
    rw [Member.spans, List.forall_mem_append] at h
    rw [Member.All]
    exact ⟨Key.all_of_spans key h.1, Func.all_of_spans f h.2⟩
  | .field key parts, h => by
    rw [Member.spans, List.forall_mem_append] at h
    rw [Member.All]
    exact ⟨Key.all_of_spans key h.1, exprsAll_of_spans parts h.2⟩
  | .staticBlock body, h => by
    rw [Member.spans] at h
    rw [Member.All]
    exact stmtsAll_of_spans body h
  | .types parts, h => by
    rw [Member.spans] at h
    rw [Member.All]
    exact exprsAll_of_spans parts h

theorem membersAll_of_spans :
    ∀ ms : List Member, (∀ s ∈ membersSpans ms, S s) → membersAll (fun id => S id.span) ms
  | [], _ => by rw [membersAll]; trivial
  | m :: ms, h => by
    rw [membersSpans, List.forall_mem_append] at h
    rw [membersAll]
    exact ⟨Member.all_of_spans m h.1, membersAll_of_spans ms h.2⟩

theorem Declarator.all_of_spans :
    ∀ d : Declarator, (∀ s ∈ d.spans, S s) → d.All fun id => S id.span
  | .mk name init, h => by
    rw [Declarator.spans, List.forall_mem_append] at h
    rw [Declarator.All]
    exact ⟨Pat.all_of_spans name h.1, exprsAll_of_spans init h.2⟩

theorem declaratorsAll_of_spans : ∀ ds : List Declarator, (∀ s ∈ declaratorsSpans ds, S s) →
    declaratorsAll (fun id => S id.span) ds
  | [], _ => by rw [declaratorsAll]; trivial
  | d :: ds, h => by
    rw [declaratorsSpans, List.forall_mem_append] at h
    rw [declaratorsAll]
    exact ⟨Declarator.all_of_spans d h.1, declaratorsAll_of_spans ds h.2⟩

theorem ForHead.all_of_spans : ∀ x : ForHead, (∀ s ∈ x.spans, S s) → x.All fun id => S id.span
  | .declaration _ declarators, h => by
    rw [ForHead.spans] at h
    rw [ForHead.All]
    exact declaratorsAll_of_spans declarators h
  | .target p, h => by
    rw [ForHead.spans] at h
    rw [ForHead.All]
    exact Pat.all_of_spans p h

theorem Stmt.all_of_spans : ∀ x : Stmt, (∀ s ∈ x.spans, S s) → x.All fun id => S id.span
  | .expr _ e, h => by
    rw [Stmt.spans, List.forall_mem_cons] at h
    rw [Stmt.All]
    exact Expr.all_of_spans e h.2
  | .plain _ _ exprs body, h => by
    rw [Stmt.spans, List.forall_mem_cons, List.forall_mem_append] at h
    rw [Stmt.All]
    exact ⟨exprsAll_of_spans exprs h.2.1, stmtsAll_of_spans body h.2.2⟩
  | .block _ body, h => by
    rw [Stmt.spans, List.forall_mem_cons] at h
    rw [Stmt.All]
    exact stmtsAll_of_spans body h.2
  | .tryCatch _ body param handler finalizer, h => by
    simp only [Stmt.spans, List.forall_mem_cons, List.forall_mem_append] at h
    rw [Stmt.All]
    exact ⟨stmtsAll_of_spans body h.2.1.1.1, patsAll_of_spans param h.2.1.1.2,
      stmtsAll_of_spans handler h.2.1.2, stmtsAll_of_spans finalizer h.2.2⟩
  | .forLoop _ init exprs body, h => by
    simp only [Stmt.spans, List.forall_mem_cons, List.forall_mem_append] at h
    rw [Stmt.All]
    exact ⟨stmtsAll_of_spans init h.2.1.1, exprsAll_of_spans exprs h.2.1.2,
      Stmt.all_of_spans body h.2.2⟩
  | .forEach _ _ head right body, h => by
    simp only [Stmt.spans, List.forall_mem_cons, List.forall_mem_append] at h
    rw [Stmt.All]
    exact ⟨ForHead.all_of_spans head h.2.1.1, Expr.all_of_spans right h.2.1.2,
      Stmt.all_of_spans body h.2.2⟩
  | .varDecl _ _ declarators, h => by
    rw [Stmt.spans, List.forall_mem_cons] at h
    rw [Stmt.All]
    exact declaratorsAll_of_spans declarators h.2
  | .fnDecl _ _ f, h => by
    simp only [Stmt.spans, List.forall_mem_cons] at h
    rw [Stmt.All]
    exact Func.all_of_spans f h.2.2
  | .classDecl _ _ c, h => by
    simp only [Stmt.spans, List.forall_mem_cons] at h
    rw [Stmt.All]
    exact Class.all_of_spans c h.2.2

theorem stmtsAll_of_spans :
    ∀ xs : List Stmt, (∀ s ∈ stmtsSpans xs, S s) → stmtsAll (fun id => S id.span) xs
  | [], _ => by rw [stmtsAll]; trivial
  | x :: xs, h => by
    rw [stmtsSpans, List.forall_mem_append] at h
    rw [stmtsAll]
    exact ⟨Stmt.all_of_spans x h.1, stmtsAll_of_spans xs h.2⟩

end

/-! ## What is taken from a script -/

/-- The references of an expression are at spans in it. -/
theorem Expr.references_span {e : Expr} {u : Use} (h : u ∈ e.references) :
    u.id.span ∈ e.spans :=
  Expr.references_all (Expr.all_of_spans e fun _ hs => hs) u h

theorem filteredReferences_span {head : Expr} {arguments : List Arg} {u : Use}
    (h : u ∈ filteredReferences head arguments) :
    u.id.span ∈ head.spans ∨ u.id.span ∈ argsSpans arguments :=
  let S (s : Span) : Prop := s ∈ head.spans ∨ s ∈ argsSpans arguments
  filteredReferences_all (Expr.all_of_spans (S := S) head fun _ hs => .inl hs)
    (argsAll_of_spans (S := S) arguments fun _ hs => .inr hs) u h

theorem bodyReferences_span {names : List String} {body : List Stmt} {u : Use}
    (h : u ∈ bodyReferences names body) : u.id.span ∈ stmtsSpans body :=
  bodyReferences_all names (stmtsAll_of_spans body fun _ hs => hs) u h

theorem patReferences_span {pats : List Pat} {u : Use} (h : u ∈ patReferences pats) :
    u.id.span ∈ patsSpans pats :=
  patReferences_all (patsAll_of_spans pats fun _ hs => hs) u h

/-- The names that patterns bind are at spans in them. -/
theorem boundByPats_span {ps : List Pat} {id : Ident} (h : id ∈ boundByPats ps) :
    id.span ∈ patsSpans ps :=
  boundByPats_all ps (patsAll_of_spans ps fun _ hs => hs) id h

end TemplateSyntax.Script
