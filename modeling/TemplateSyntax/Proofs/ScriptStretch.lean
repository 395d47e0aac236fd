import TemplateSyntax.Proofs.ScriptIdents
import TemplateSyntax.Proofs.ScriptLexeme

/-! # Identifiers in a stretch of a text

An identifier belongs to a stretch of a text when it is a word that stands there.  What parsers give
is made of parts, and belongs to a stretch when its parts do. -/

namespace TemplateSyntax.Script

open Text (Between)

/-! ## The identifiers of a result -/

/-- Results that may have identifiers. -/
class HasIdents (α : Type) where
  /-- What holds of all identifiers. -/
  all : (Ident → Prop) → α → Prop

namespace HasIdents

instance : HasIdents Unit := ⟨fun _ _ => True⟩
instance : HasIdents Bool := ⟨fun _ _ => True⟩
instance : HasIdents Nat := ⟨fun _ _ => True⟩
instance : HasIdents Ident := ⟨fun P id => P id⟩
instance : HasIdents Expr := ⟨Expr.All⟩
instance : HasIdents Arg := ⟨Arg.All⟩
instance : HasIdents Key := ⟨Key.All⟩
instance : HasIdents Property := ⟨Property.All⟩
instance : HasIdents Pat := ⟨Pat.All⟩
instance : HasIdents PatProperty := ⟨PatProperty.All⟩
instance : HasIdents Func := ⟨Func.All⟩
instance : HasIdents Class := ⟨Class.All⟩
instance : HasIdents Member := ⟨Member.All⟩
instance : HasIdents Declarator := ⟨Declarator.All⟩
instance : HasIdents ForHead := ⟨ForHead.All⟩
instance : HasIdents Stmt := ⟨Stmt.All⟩

variable {α β : Type} [HasIdents α] [HasIdents β]

instance : HasIdents (List α) := ⟨fun P as => ∀ a ∈ as, all P a⟩
instance : HasIdents (Option α) := ⟨fun P x => ∀ a, x = some a → all P a⟩
instance : HasIdents (α × β) := ⟨fun P x => all P x.1 ∧ all P x.2⟩

end HasIdents

/-- A stretch of a text, from one byte index to another. -/
structure Stretch where
  text : List Char
  lo : Nat
  hi : Nat

namespace Stretch

/-- The identifier is a word of the stretch. -/
structure Named (t : Stretch) (id : Ident) : Prop where
  lo : t.lo ≤ id.span.start
  hi : id.span.stop ≤ t.hi
  spelled : ∃ raw, raw ≠ [] ∧ Between t.text id.span.start raw id.span.stop ∧
    Spelled raw id.name.toList

/-- A word has characters. -/
theorem Named.start_lt_stop {t : Stretch} {id : Ident} (h : t.Named id) :
    id.span.start < id.span.stop := by
  obtain ⟨raw, hne, hin, -⟩ := h.spelled
  have hsize : Text.byteLength raw ≠ 0 := fun h0 => hne (Text.byteLength_eq_zero.1 h0)
  have hstop := hin.1
  omega

/-- All identifiers are words of the stretch. -/
def All {α : Type} [HasIdents α] (t : Stretch) (a : α) : Prop := HasIdents.all t.Named a

/-! ### The identifiers of parts -/

section

variable {α β : Type} [HasIdents α] [HasIdents β] {t : Stretch}

@[simp] theorem all_none : t.All (none : Option α) := fun _ h => by simp at h

@[simp] theorem all_some {a : α} : t.All (some a) ↔ t.All a :=
  ⟨fun h => h a rfl, fun h b hb => by rwa [← Option.some.inj hb]⟩

@[simp] theorem all_nil : t.All ([] : List α) := fun _ h => by simp at h

@[simp] theorem all_cons {a : α} {as : List α} : t.All (a :: as) ↔ t.All a ∧ t.All as :=
  List.forall_mem_cons

@[simp] theorem all_singleton {a : α} : t.All [a] ↔ t.All a := List.forall_mem_singleton

@[simp] theorem all_append {as bs : List α} : t.All (as ++ bs) ↔ t.All as ∧ t.All bs :=
  List.forall_mem_append

@[simp] theorem all_flatten {as : List (List α)} : t.All as.flatten ↔ t.All as := by
  simp only [All, HasIdents.all, List.mem_flatten]
  exact ⟨fun h l hl a ha => h a ⟨l, hl, ha⟩, fun h a ⟨l, hl, ha⟩ => h l hl a ha⟩

@[simp] theorem all_pair {a : α} {b : β} : t.All (a, b) ↔ t.All a ∧ t.All b := Iff.rfl

theorem all_fst {x : α × β} (h : t.All x) : t.All x.1 := h.1

theorem all_snd {x : α × β} (h : t.All x) : t.All x.2 := h.2

theorem all_getD {x : Option α} {a : α} (h : t.All x) (ha : t.All a) : t.All (x.getD a) := by
  cases x with
  | none => exact ha
  | some b => exact h b rfl

theorem all_map_fst {xs : List (α × β)} (h : t.All xs) : t.All (xs.map Prod.fst) := by
  intro a ha
  obtain ⟨x, hx, rfl⟩ := List.mem_map.1 ha
  exact all_fst (h x hx)

theorem all_map_snd {xs : List (α × β)} (h : t.All xs) : t.All (xs.map Prod.snd) := by
  intro b hb
  obtain ⟨x, hx, rfl⟩ := List.mem_map.1 hb
  exact all_snd (h x hx)

@[simp] theorem all_number {s : Span} : t.All (Expr.number s) := by
  simp only [All, HasIdents.all, Expr.All]

@[simp] theorem all_literal {s : Span} : t.All (Expr.literal s) := by
  simp only [All, HasIdents.all, Expr.All]

@[simp] theorem all_fixed {s : Span} : t.All (Key.fixed s) := by
  simp only [All, HasIdents.all, Key.All]

@[simp] theorem all_hole : t.All Arg.hole := by
  simp only [All, HasIdents.all, Arg.All]

@[simp] theorem all_patHole : t.All Pat.hole := by
  simp only [All, HasIdents.all, Pat.All]

@[simp] theorem all_ident {id : Ident} :
    t.All (Expr.ident id) ↔ t.All id := by
  simp only [All, HasIdents.all, Expr.All]

@[simp] theorem all_array {s : Span} {elements : List Arg} :
    t.All (Expr.array s elements) ↔ t.All elements := by
  simp only [All, HasIdents.all, Expr.All, argsAll_iff]

@[simp] theorem all_object {s : Span} {properties : List Property} :
    t.All (Expr.object s properties) ↔ t.All properties := by
  simp only [All, HasIdents.all, Expr.All, propertiesAll_iff]

@[simp] theorem all_fn {s : Span} {name : Option Ident} {f : Func} :
    t.All (Expr.fn s name f) ↔ t.All f := by
  simp only [All, HasIdents.all, Expr.All]

@[simp] theorem all_cls {s : Span} {name : Option Ident} {c : Class} :
    t.All (Expr.cls s name c) ↔ t.All c := by
  simp only [All, HasIdents.all, Expr.All]

@[simp] theorem all_arrow {s : Span} {params : List Pat} {body : Stmt} :
    t.All (Expr.arrow s params body) ↔ t.All params ∧ t.All body := by
  simp only [All, HasIdents.all, Expr.All, patsAll_iff]

@[simp] theorem all_assign {s : Span} {op : AssignOp} {target : Pat} {value : Expr} :
    t.All (Expr.assign s op target value) ↔ t.All target ∧ t.All value := by
  simp only [All, HasIdents.all, Expr.All]

@[simp] theorem all_update {s : Span} {argument : Expr} :
    t.All (Expr.update s argument) ↔ t.All argument := by
  simp only [All, HasIdents.all, Expr.All]

@[simp] theorem all_unary {s : Span} {isVoid : Bool} {argument : Expr} :
    t.All (Expr.unary s isVoid argument) ↔ t.All argument := by
  simp only [All, HasIdents.all, Expr.All]

@[simp] theorem all_binary {s : Span} {op : BinaryOp} {left right : Expr} :
    t.All (Expr.binary s op left right) ↔ t.All left ∧ t.All right := by
  simp only [All, HasIdents.all, Expr.All]

@[simp] theorem all_paren {s : Span} {inner : Expr} :
    t.All (Expr.paren s inner) ↔ t.All inner := by
  simp only [All, HasIdents.all, Expr.All]

@[simp] theorem all_call {s : Span} {callee : Expr} {arguments : List Arg} {types : List Expr} :
    t.All (Expr.call s callee arguments types) ↔ t.All callee ∧ t.All arguments ∧ t.All types := by
  simp only [All, HasIdents.all, Expr.All, argsAll_iff, exprsAll_iff]

@[simp] theorem all_compound {kind : ExprKind} {s : Span} {parts : List Expr} :
    t.All (Expr.compound kind s parts) ↔ t.All parts := by
  simp only [All, HasIdents.all, Expr.All, exprsAll_iff]

@[simp] theorem all_item {e : Expr} :
    t.All (Arg.item e) ↔ t.All e := by
  simp only [All, HasIdents.all, Arg.All]

@[simp] theorem all_spread {start : Nat} {e : Expr} :
    t.All (Arg.spread start e) ↔ t.All e := by
  simp only [All, HasIdents.all, Arg.All]

/-- The expressions of arguments have the identifiers of the arguments. -/
theorem all_exprs {args : List Arg} (h : t.All args) : t.All (args.filterMap Arg.expr?) := by
  intro e he
  obtain ⟨a, ha, heq⟩ := List.mem_filterMap.1 he
  have hall : t.All a := h a ha
  cases a with
  | item b =>
    obtain rfl : b = e := Option.some.inj heq
    exact all_item.1 hall
  | spread i b =>
    obtain rfl : b = e := Option.some.inj heq
    exact all_spread.1 hall
  | hole => simp [Arg.expr?] at heq

@[simp] theorem all_computed {e : Expr} :
    t.All (Key.computed e) ↔ t.All e := by
  simp only [All, HasIdents.all, Key.All]

@[simp] theorem all_shorthand {id : Ident} :
    t.All (Property.shorthand id) ↔ t.All id := by
  simp only [All, HasIdents.all, Property.All]

@[simp] theorem all_shorthandDefault {id : Ident} {value : Expr} :
    t.All (Property.shorthandDefault id value) ↔ t.All id ∧ t.All value := by
  simp only [All, HasIdents.all, Property.All]

@[simp] theorem all_keyValue {key : Key} {value : Expr} :
    t.All (Property.keyValue key value) ↔ t.All key ∧ t.All value := by
  simp only [All, HasIdents.all, Property.All]

@[simp] theorem all_propertySpread {s : Span} {e : Expr} :
    t.All (Property.spread s e) ↔ t.All e := by
  simp only [All, HasIdents.all, Property.All]

@[simp] theorem all_method {s : Span} {key : Key} {f : Func} :
    t.All (Property.method s key f) ↔ t.All key ∧ t.All f := by
  simp only [All, HasIdents.all, Property.All]

@[simp] theorem all_getter {s : Span} {key : Key} {types : List Expr} {body : List Stmt} :
    t.All (Property.getter s key types body) ↔ t.All key ∧ t.All types ∧ t.All body := by
  simp only [All, HasIdents.all, Property.All, exprsAll_iff, stmtsAll_iff]

@[simp] theorem all_setter {s : Span} {key : Key} {param : Pat} {body : List Stmt} :
    t.All (Property.setter s key param body) ↔ t.All key ∧ t.All param ∧ t.All body := by
  simp only [All, HasIdents.all, Property.All, stmtsAll_iff]

@[simp] theorem all_patIdent {id : Ident} {s : Span} :
    t.All (Pat.ident id s) ↔ t.All id := by
  simp only [All, HasIdents.all, Pat.All]

@[simp] theorem all_patArray {s : Span} {elements : List Pat} :
    t.All (Pat.array s elements) ↔ t.All elements := by
  simp only [All, HasIdents.all, Pat.All, patsAll_iff]

@[simp] theorem all_patRest {s : Span} {argument : Pat} :
    t.All (Pat.rest s argument) ↔ t.All argument := by
  simp only [All, HasIdents.all, Pat.All]

@[simp] theorem all_patObject {s : Span} {properties : List PatProperty} :
    t.All (Pat.object s properties) ↔ t.All properties := by
  simp only [All, HasIdents.all, Pat.All, patPropertiesAll_iff]

@[simp] theorem all_withDefault {s : Span} {left : Pat} {right : Expr} :
    t.All (Pat.withDefault s left right) ↔ t.All left ∧ t.All right := by
  simp only [All, HasIdents.all, Pat.All]

@[simp] theorem all_patExpr {e : Expr} :
    t.All (Pat.expr e) ↔ t.All e := by
  simp only [All, HasIdents.all, Pat.All]

@[simp] theorem all_patKeyValue {key : Key} {value : Pat} :
    t.All (PatProperty.keyValue key value) ↔ t.All key ∧ t.All value := by
  simp only [All, HasIdents.all, PatProperty.All]

@[simp] theorem all_patShorthand {id : Ident} :
    t.All (PatProperty.shorthand id) ↔ t.All id := by
  simp only [All, HasIdents.all, PatProperty.All]

@[simp] theorem all_patShorthandDefault {id : Ident} {value : Expr} :
    t.All (PatProperty.shorthandDefault id value) ↔ t.All id ∧ t.All value := by
  simp only [All, HasIdents.all, PatProperty.All]

@[simp] theorem all_patPropertyRest {argument : Pat} :
    t.All (PatProperty.rest argument) ↔ t.All argument := by
  simp only [All, HasIdents.all, PatProperty.All]

@[simp] theorem all_func {params : List Pat} {body : List Stmt} :
    t.All (Func.mk params body) ↔ t.All params ∧ t.All body := by
  simp only [All, HasIdents.all, Func.All, patsAll_iff, stmtsAll_iff]

@[simp] theorem all_class {heritage : List Expr} {members : List Member} :
    t.All (Class.mk heritage members) ↔ t.All heritage ∧ t.All members := by
  simp only [All, HasIdents.all, Class.All, exprsAll_iff, membersAll_iff]

@[simp] theorem all_constructor {params : List Pat} {body : List Stmt} :
    t.All (Member.constructor params body) ↔ t.All params ∧ t.All body := by
  simp only [All, HasIdents.all, Member.All, patsAll_iff, stmtsAll_iff]

@[simp] theorem all_memberMethod {key : Key} {f : Func} :
    t.All (Member.method key f) ↔ t.All key ∧ t.All f := by
  simp only [All, HasIdents.all, Member.All]

@[simp] theorem all_field {key : Key} {parts : List Expr} :
    t.All (Member.field key parts) ↔ t.All key ∧ t.All parts := by
  simp only [All, HasIdents.all, Member.All, exprsAll_iff]

@[simp] theorem all_staticBlock {body : List Stmt} :
    t.All (Member.staticBlock body) ↔ t.All body := by
  simp only [All, HasIdents.all, Member.All, stmtsAll_iff]

@[simp] theorem all_types {parts : List Expr} :
    t.All (Member.types parts) ↔ t.All parts := by
  simp only [All, HasIdents.all, Member.All, exprsAll_iff]

@[simp] theorem all_declarator {name : Pat} {init : List Expr} :
    t.All (Declarator.mk name init) ↔ t.All name ∧ t.All init := by
  simp only [All, HasIdents.all, Declarator.All, exprsAll_iff]

@[simp] theorem all_declaration {isVar : Bool} {declarators : List Declarator} :
    t.All (ForHead.declaration isVar declarators) ↔ t.All declarators := by
  simp only [All, HasIdents.all, ForHead.All, declaratorsAll_iff]

@[simp] theorem all_target {p : Pat} :
    t.All (ForHead.target p) ↔ t.All p := by
  simp only [All, HasIdents.all, ForHead.All]

@[simp] theorem all_stmtExpr {s : Span} {e : Expr} :
    t.All (Stmt.expr s e) ↔ t.All e := by
  simp only [All, HasIdents.all, Stmt.All]

@[simp] theorem all_plain {kind : StmtKind} {s : Span} {exprs : List Expr} {body : List Stmt} :
    t.All (Stmt.plain kind s exprs body) ↔ t.All exprs ∧ t.All body := by
  simp only [All, HasIdents.all, Stmt.All, exprsAll_iff, stmtsAll_iff]

@[simp] theorem all_block {s : Span} {body : List Stmt} :
    t.All (Stmt.block s body) ↔ t.All body := by
  simp only [All, HasIdents.all, Stmt.All, stmtsAll_iff]

@[simp] theorem all_tryCatch {s : Span} {body : List Stmt} {param : List Pat}
    {handler finalizer : List Stmt} : t.All (Stmt.tryCatch s body param handler finalizer) ↔
      t.All body ∧ t.All param ∧ t.All handler ∧ t.All finalizer := by
  simp only [All, HasIdents.all, Stmt.All, stmtsAll_iff, patsAll_iff]

@[simp] theorem all_forLoop {s : Span} {init : List Stmt} {exprs : List Expr} {body : Stmt} :
    t.All (Stmt.forLoop s init exprs body) ↔ t.All init ∧ t.All exprs ∧ t.All body := by
  simp only [All, HasIdents.all, Stmt.All, stmtsAll_iff, exprsAll_iff]

@[simp] theorem all_forEach {kind : StmtKind} {s : Span} {head : ForHead} {right : Expr} {body : Stmt} :
    t.All (Stmt.forEach kind s head right body) ↔ t.All head ∧ t.All right ∧ t.All body := by
  simp only [All, HasIdents.all, Stmt.All]

@[simp] theorem all_varDecl {s : Span} {isVar : Bool} {declarators : List Declarator} :
    t.All (Stmt.varDecl s isVar declarators) ↔ t.All declarators := by
  simp only [All, HasIdents.all, Stmt.All, declaratorsAll_iff]

@[simp] theorem all_fnDecl {s : Span} {name : Ident} {f : Func} :
    t.All (Stmt.fnDecl s name f) ↔ t.All f := by
  simp only [All, HasIdents.all, Stmt.All]

@[simp] theorem all_classDecl {s : Span} {name : Ident} {c : Class} :
    t.All (Stmt.classDecl s name c) ↔ t.All c := by
  simp only [All, HasIdents.all, Stmt.All]

end
end Stretch

end TemplateSyntax.Script
