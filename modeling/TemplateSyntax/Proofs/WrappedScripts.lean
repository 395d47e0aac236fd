import TemplateSyntax.Embedded.Handler
import TemplateSyntax.Proofs.FragmentMove
import TemplateSyntax.Proofs.GrammarFaithful

/-! # What is read in a wrapping

A wrapping puts a text between the start of a script and its end.  When the script has the shape that
the wrapping is made for, the parts of that shape are those of the wrapping: they start where it starts,
and end where it ends.  The text itself is what stands between the bracket that opens these parts and
the one that closes them. -/

namespace TemplateSyntax

open Script
open Text (Between From byteLength)

namespace Text

variable {cs raw tail : List Char} {i j : Nat} {c : Char}

/-- A piece in which a character does not come first is empty where that character comes. -/
theorem Between.eq_nil (h : Between cs i raw j) (hfrom : From cs i (c :: tail)) (hc : raw.head? ≠ some c) :
    raw = [] := by
  obtain ⟨-, post, hraw⟩ := h
  cases raw with
  | nil => rfl
  | cons d raw => exact absurd (congrArg some (List.cons.inj (hfrom.unique hraw)).1.symm) hc

end Text

/-- A function behind `void`, with its parameters at once, starts where the text says so. -/
theorem Script.VoidFunction.starts {rest : List Char} {span fn : Span} {name : Option Ident}
    {params : List Pat} {body : List Stmt}
    (h : VoidFunction ("void function(".toList ++ rest) span fn name params body) :
    span.start = 0 ∧ fn.start = 5 := by
  have hzero : From ("void function(".toList ++ rest) 0 ('v' :: ("oid function(".toList ++ rest)) :=
    .start _
  have hfour : From ("void function(".toList ++ rest) 4 (' ' :: ("function(".toList ++ rest)) :=
    ⟨"void".toList, rfl, rfl⟩
  have hvoid : span.start = 0 := h.alone.front.eq_of_solid hzero ⟨by decide, by decide, by decide⟩
  have hword := h.word
  rw [hvoid] at hword
  -- the word is behind the blank, and is no blank
  rcases hword.of_blank hfour (by decide) with hblank | hgap
  · obtain ⟨tail, hfrom | hfrom⟩ := h.start <;>
      exact absurd (List.cons.inj ((hblank ▸ hfrom).unique hfour)).1 (by decide)
  · exact ⟨hvoid, hgap.eq_of_solid hfour.cons ⟨by decide, by decide, by decide⟩⟩

/-! ## The wrappings of expressions and statements -/

namespace Wrapping

variable {reader : Reader} {lang : Lang} {code : List Char}

/-- The script is the call that the wrapping makes: it starts at the number of the wrapping, whose
parenthesis opens the arguments, and ends with the parenthesis that ends the wrapping.  The
expression is the only argument, and is made of words of the text between the two. -/
structure OwnCall (reader : Reader) (lang : Lang) (code : List Char) (e : Expr) : Prop where
  script : ∃ span, reader lang (expression.wrap code) =
    .ok [.expr span (.call ⟨0, byteLength (expression.wrap code)⟩ (.number ⟨0, 1⟩) [.item e] [])]
  inside : Words (expression.wrap code) e 2 (byteLength (expression.wrap code) - 1)

/-- The script is the function that the wrapping makes: its parameter is that of the wrapping, whose
brace opens the body, and it ends with the brace that ends the wrapping.  The statements are all of
the body, and are made of words of the text between the two. -/
structure OwnFunction (reader : Reader) (lang : Lang) (code : List Char) (body : List Stmt) : Prop where
  script : ∃ span, reader lang (statements.wrap code) =
    .ok [.expr span (.unary ⟨0, byteLength (statements.wrap code)⟩ true
      (.fn ⟨5, byteLength (statements.wrap code)⟩ none (.mk [eventParameter 14] body)))]
  inside : Words (statements.wrap code) body 22 (byteLength (statements.wrap code) - 1)

theorem ownCall_of_read (hreader : reader.Faithful) {span callSpan number : Span} {e : Expr}
    {types : List Expr} (h : reader lang (expression.wrap code) =
      .ok [.expr span (.call callSpan (.number number) [.item e] types)]) :
    OwnCall reader lang code e := by
  have hwrap : expression.wrap code = "0(".toList ++ (code ++ "\n)".toList) := List.append_assoc ..
  obtain ⟨⟨hfront, hback⟩, hstart, ⟨raw, hnumber, hne, hparen⟩, hargs⟩ := hreader.call (hwrap ▸ h)
  obtain ⟨raw', openAt, close, htypes, hhead, hnone, -, -, hclose, hwords⟩ := hargs
  rw [← hwrap] at hfront hback hnumber htypes hwords
  have hzero : From (expression.wrap code) 0 ('0' :: '(' :: (code ++ "\n)".toList)) := ⟨[], hwrap, rfl⟩
  -- the call starts with the text, and its number is all that is in front of the parenthesis
  have hcall : callSpan.start = 0 := hfront.eq_of_solid hzero ⟨by decide, by decide, by decide⟩
  rw [← hstart, hcall] at hnumber
  obtain rfl : raw = ['0'] := by
    obtain ⟨-, post, hraw⟩ := hnumber
    match raw, hne with
    | [d], _ => rw [(List.cons.inj (hzero.unique hraw)).1]
    | d :: d' :: raw, _ =>
      have hsecond := (List.cons.inj (List.cons.inj (hzero.unique hraw)).2).1
      exact absurd (hsecond ▸ by simp) hparen
  have hone : number.stop = 1 := hnumber.1
  rw [hone] at htypes
  obtain rfl := htypes.eq_nil hzero.cons hhead
  obtain rfl : openAt = 1 := htypes.1
  obtain rfl := hnone rfl
  have hstop : callSpan.stop = byteLength (expression.wrap code) :=
    hback.eq_size ⟨'0' :: '(' :: code, rfl⟩ (by decide) (by decide) (by decide)
  have hcallSpan : callSpan = ⟨0, byteLength (expression.wrap code)⟩ := congrArg₂ Span.mk hcall hstop
  have hnumberSpan : number = ⟨0, 1⟩ := congrArg₂ Span.mk (hstart.symm.trans hcall) hone
  rw [hcallSpan, hnumberSpan] at h
  rw [hstop] at hclose
  obtain ⟨mid, hlo, hmid, hall⟩ := (show close = _ from Nat.eq_sub_of_add_eq hclose) ▸ hwords
  exact ⟨⟨span, h⟩, mid, hlo, hmid, by simpa using hall⟩

theorem ownFunction_of_read (hreader : reader.Faithful) {span voidSpan fnSpan : Span}
    {name : Option Ident} {params : List Pat} {body : List Stmt}
    (h : reader lang (statements.wrap code) =
      .ok [.expr span (.unary voidSpan true (.fn fnSpan name (.mk params body)))]) :
    OwnFunction reader lang code body := by
  have hwrap : statements.wrap code = "void function(".toList ++
      ("$event)\x7b".toList ++ (code ++ "\n\x7d".toList)) := List.append_assoc ..
  have hread := h
  rw [hwrap] at hread
  have hfunction := hreader.function hread
  obtain ⟨hvoid, hfive⟩ := hfunction.starts
  obtain ⟨⟨-, hback⟩, -, -, hfn, -, hbody⟩ := hfunction
  rw [← hwrap] at hback hbody
  have hfrom : From (statements.wrap code) 5 ("function($event)\x7b".toList ++
      (code ++ "\n\x7d".toList)) := ⟨"void ".toList, hwrap, rfl⟩
  rw [hfive] at hbody
  obtain ⟨rfl, rfl, close, -, hclose, hwords⟩ := hbody _ hfrom
  have hstop : voidSpan.stop = byteLength (statements.wrap code) :=
    hback.eq_size ⟨"void function($event)\x7b".toList ++ code, rfl⟩ (by decide) (by decide) (by decide)
  rw [hfn, hstop] at hclose
  have hvoidSpan : voidSpan = ⟨0, byteLength (statements.wrap code)⟩ := congrArg₂ Span.mk hvoid hstop
  have hfnSpan : fnSpan = ⟨5, byteLength (statements.wrap code)⟩ := congrArg₂ Span.mk hfive (hfn.trans hstop)
  rw [hvoidSpan, hfnSpan] at h
  exact ⟨⟨span, h⟩, (show close = _ from Nat.eq_sub_of_add_eq hclose) ▸ hwords⟩

end Wrapping

namespace Fragment

open Wrapping

variable {f : Fragment}

theorem wrappedArguments?_eq_some {body : List Stmt} {args : List Arg}
    (h : wrappedArguments? body = some args) : ∃ span callSpan number types,
      body = [.expr span (.call callSpan (.number number) args types)] := by
  unfold wrappedArguments? at h
  split at h
  · obtain rfl := Option.some.inj h
    exact ⟨_, _, _, _, rfl⟩
  · exact absurd h nofun

theorem wrappedFunction?_eq_some {body : List Stmt} {x : Func} (h : wrappedFunction? body = some x) :
    ∃ span voidSpan fnSpan name, body = [.expr span (.unary voidSpan true (.fn fnSpan name x))] := by
  unfold wrappedFunction? at h
  split at h
  · obtain rfl := Option.some.inj h
    exact ⟨_, _, _, _, rfl⟩
  · exact absurd h nofun

/-- A script that is read in a wrapping has its places moved to the host file. -/
theorem parse_ok {w : Wrapped} {body : List Stmt} (h : w.parse = .ok body) :
    ∃ script, w.fragment.reader w.fragment.lang (w.wrapping.wrap w.fragment.code) = .ok script ∧
      body = mapStmts w.host script := by
  unfold Wrapped.parse at h
  split at h
  · next script heq => exact ⟨script, heq, (Except.ok.inj h).symm⟩
  · exact absurd h nofun

/-- An expression that was read is the only argument of a call of a number. -/
theorem readOne_ok {e : Expr} (h : f.readOne = .ok e) : ∃ span callSpan number inner types,
    f.reader f.lang (expression.wrap f.code) =
      .ok [.expr span (.call callSpan (.number number) [.item inner] types)] ∧
    e = inner.map (Wrapped.mk f .expression).host := by
  obtain ⟨body, hbody, hrest⟩ := bind_ok h
  obtain ⟨script, hscript, rfl⟩ := parse_ok hbody
  rw [wrappedArguments?_map] at hrest
  cases hargs : wrappedArguments? script with
  | none =>
    rw [hargs] at hrest
    exact absurd hrest nofun
  | some args =>
    rw [hargs, Option.map_some] at hrest
    obtain ⟨span, callSpan, number, types, rfl⟩ := wrappedArguments?_eq_some hargs
    match args with
    | [.item inner] => exact ⟨span, callSpan, number, inner, types, hscript, (Except.ok.inj hrest).symm⟩
    | [] | [.spread _ _] | [.hole] => exact absurd hrest nofun
    | .item _ :: a :: _ | .spread _ _ :: a :: _ | .hole :: a :: _ =>
      cases a <;> exact absurd hrest nofun

/-- The function of a wrapped text is that of the script, moved to the host file. -/
theorem function_ok {w : Wrapped} {body : List Stmt} {x : Func} (h : w.parse = .ok body)
    (hx : wrappedFunction? body = some x) : ∃ span voidSpan fnSpan name y,
      w.fragment.reader w.fragment.lang (w.wrapping.wrap w.fragment.code) =
        .ok [.expr span (.unary voidSpan true (.fn fnSpan name y))] ∧ x = y.map w.host := by
  obtain ⟨script, hscript, rfl⟩ := parse_ok h
  rw [wrappedFunction?_map] at hx
  obtain ⟨y, hy, rfl⟩ := Option.map_eq_some_iff.1 hx
  obtain ⟨span, voidSpan, fnSpan, name, rfl⟩ := wrappedFunction?_eq_some hy
  exact ⟨span, voidSpan, fnSpan, name, y, hscript, rfl⟩

/-- What is read of statements is the body of the function that the script is. -/
theorem readStatements_ok {x : Embedded} (h : f.readStatements = .ok x) :
    ∃ span voidSpan fnSpan name params body, f.reader f.lang (statements.wrap f.code) =
      .ok [.expr span (.unary voidSpan true (.fn fnSpan name (.mk params body)))] ∧
      x = { expression := some (.handler
              ((mapStmts (Wrapped.mk f .statements).host body).map Stmt.shape) f.trimmedSpan)
            references := ((bodyReferences [eventName]
              (mapStmts (Wrapped.mk f .statements).host body)).map Use.reference).toArray } := by
  obtain ⟨script, hscript, hrest⟩ := bind_ok h
  cases hfunction : wrappedFunction? script with
  | none =>
    rw [hfunction] at hrest
    exact absurd hrest nofun
  | some y =>
    obtain ⟨span, voidSpan, fnSpan, name, ⟨params, body⟩, hread, rfl⟩ := function_ok hscript hfunction
    rw [hfunction] at hrest
    exact ⟨span, voidSpan, fnSpan, name, params, body, hread, (Except.ok.inj hrest).symm⟩

/-- No text leaves its wrapping, whatever faithful reader is at work.  An expression that is read as a
whole is the one argument of the call that the wrapping makes, and statements that are read are the body of
the function that the wrapping makes; both are given with the host offsets of their places. -/
theorem wrappings_enclose (code : List Char) (map : OffsetMap) (lang : Lang) {reader : Reader}
    (hreader : reader.Faithful) :
    let f : Fragment := ⟨code, map, lang, reader⟩
    (∀ e, f.readOne = .ok e → ∃ inner, OwnCall reader lang code inner ∧
      e = inner.map (Wrapped.mk f .expression).host) ∧
    ∀ x, f.readStatements = .ok x → ∃ body, OwnFunction reader lang code body ∧
      x.expression = some (.handler
        ((mapStmts (Wrapped.mk f .statements).host body).map Stmt.shape) f.trimmedSpan) := by
  intro f
  refine ⟨fun e he => ?_, fun x hx => ?_⟩
  · obtain ⟨span, callSpan, number, inner, types, hread, rfl⟩ := readOne_ok he
    exact ⟨inner, ownCall_of_read hreader hread, rfl⟩
  · obtain ⟨span, voidSpan, fnSpan, name, params, body, hread, rfl⟩ := readStatements_ok hx
    exact ⟨body, ownFunction_of_read hreader hread, rfl⟩

theorem exists_ok {ε α : Type} {x : Except ε α} (h : x.toOption.isSome = true) : ∃ a, x = .ok a := by
  cases x with
  | ok a => exact ⟨a, rfl⟩
  | error e => exact absurd h nofun

/-- An argument with a comment behind it, and two statements. -/
theorem wrappings_enclose_comment : Reader.Faithful Script.parse ∧
    (∃ e, (Fragment.mk "f(a) // )".toList (OffsetMap.atOffset #[] 0) .javaScript Script.parse).readOne =
      .ok e ∧ ∃ inner, OwnCall Script.parse .javaScript "f(a) // )".toList inner) ∧
    ∃ x body, (Fragment.mk "a++; \x7b b() \x7d".toList (OffsetMap.atOffset #[] 0) .javaScript
      Script.parse).readStatements = .ok x ∧
        OwnFunction Script.parse .javaScript "a++; \x7b b() \x7d".toList body := by
  obtain ⟨e, he⟩ := exists_ok (x := (Fragment.mk "f(a) // )".toList (OffsetMap.atOffset #[] 0)
    .javaScript Script.parse).readOne) (by decide +kernel)
  obtain ⟨x, hx⟩ := exists_ok (x := (Fragment.mk "a++; \x7b b() \x7d".toList
    (OffsetMap.atOffset #[] 0) .javaScript Script.parse).readStatements) (by decide +kernel)
  obtain ⟨inner, hcall, -⟩ := (wrappings_enclose _ _ _ parse_faithful).1 e he
  obtain ⟨body, hfunction, -⟩ := (wrappings_enclose _ _ _ parse_faithful).2 x hx
  exact ⟨parse_faithful, ⟨e, he, inner, hcall⟩, x, body, hx, hfunction⟩

end Fragment
end TemplateSyntax
