import TemplateSyntax.Proofs.PatternOrder
import TemplateSyntax.Proofs.ScriptEnd

/-! # The grammar is faithful

What the grammar gives for a script stands in the text.  A script that starts like a call of a number, a
function behind `void` or a loop over a list, and is one, was read by the rules for these from its first
token on: the brackets that the rules take are those of the text, and what they give between two brackets
was read between them. -/

namespace TemplateSyntax.Script

open Text (From Between byteLength)

variable {lang : Lang} {cs tail rest : List Char} {s s' : ParseState} {i n : Nat}

/-! ## States in front of a text -/

theorem ParseState.ofChars_at (lang : Lang) (cs : List Char) : (ofChars lang cs).At cs :=
  ⟨cs, .start cs, rfl, rfl, rfl⟩

/-- A parser of the grammar keeps to its text. -/
theorem ParseState.At.after {α : Type} [HasIdents α] {p : Parser α} {a : α} (hs : s.At cs)
    (hp : ∀ t : Stretch, t.Reads True p) (h : p s = .ok a s') : s'.At cs := by
  have hleads := (hp ⟨cs, 0, 0⟩).moves s hs
  rw [h] at hleads
  exact hleads.1

/-- The state stands in front of a text that starts at an index, and reads a language. -/
structure Front (lang : Lang) (s : ParseState) (tail : List Char) (i : Nat) : Prop where
  stop : s.lastStop = i
  token : s.token = (Lexeme.read tail i).token
  here : s.here = (Lexeme.read tail i).here
  rest : s.rest = (Lexeme.read tail i).rest
  lang : s.mode.lang = lang

namespace Front

theorem ofChars (lang : Lang) (cs : List Char) : Front lang (ParseState.ofChars lang cs) cs 0 :=
  ⟨rfl, rfl, rfl, rfl, rfl⟩

theorem at_text (h : Front lang s tail i) (hfrom : From cs i tail) : s.At cs := by
  obtain ⟨hstop, htoken, hhere, hrest, -⟩ := h
  subst hstop
  exact ⟨tail, hfrom, htoken, hhere, hrest⟩

/-- Nothing else of the mode matters, and not where an arrow may start. -/
theorem congr {m : Mode} {a : Option Nat} (h : Front lang s tail i) (hm : m.lang = lang) :
    Front lang { s with mode := m, arrowStart := a } tail i :=
  ⟨h.stop, h.token, h.here, h.rest, hm⟩

theorem lexeme {x : Lexed} (h : Front lang s tail i) (hread : Lexeme.read tail i = x) :
    s.token.lexeme = x.token.lexeme := by
  rw [h.token, hread]

/-- Behind its first token the text goes on. -/
theorem next {x : Lexed} {u : Unit} (h : Front lang s tail i) (hread : Lexeme.read tail i = x)
    (hrun : Parser.advance s = .ok u s') : Front lang s' x.rest x.token.stop := by
  rcases Parser.advance_cases s with ⟨index, -, hfail⟩ | ⟨-, hresume⟩
  · exact nomatch hfail.symm.trans hrun
  · obtain ⟨-, rfl⟩ := EStateM.Result.ok.inj (hresume.symm.trans hrun)
    have htoken := h.token
    have hrest := h.rest
    rw [hread] at htoken hrest
    rw [← hrest, ← htoken]
    exact ⟨rfl, rfl, rfl, rfl, h.lang⟩

end Front

/-! ## The first tokens of the wrappings -/

namespace Lexeme

theorem read_zero : read ('0' :: '(' :: rest) i =
    ⟨⟨.number, i, i + 1, false⟩, '0' :: '(' :: rest, '(' :: rest, none⟩ := rfl

theorem read_openParen : read ('(' :: rest) i =
    ⟨⟨.punct "(", i, i + 1, false⟩, '(' :: rest, rest, none⟩ := rfl

theorem read_closeParen : read (')' :: rest) i =
    ⟨⟨.punct ")", i, i + 1, false⟩, ')' :: rest, rest, none⟩ := rfl

theorem read_openBrace : read ('\x7b' :: rest) i =
    ⟨⟨.punct "\x7b", i, i + 1, false⟩, '\x7b' :: rest, rest, none⟩ := rfl

theorem read_void : read ("void function(".toList ++ rest) i =
    ⟨⟨.word "void" false, i, i + 4, false⟩, "void function(".toList ++ rest,
      " function(".toList ++ rest, none⟩ := rfl

theorem read_function : read (" function(".toList ++ rest) i =
    ⟨⟨.word "function" false, i + 1, i + 9, false⟩, "function(".toList ++ rest, '(' :: rest, none⟩ :=
  rfl

theorem read_event : read ("$event)".toList ++ rest) i =
    ⟨⟨.word "$event" false, i, i + 6, false⟩, "$event)".toList ++ rest, ')' :: rest, none⟩ := rfl

theorem read_let : read ("let [".toList ++ rest) i =
    ⟨⟨.word "let" false, i, i + 3, false⟩, "let [".toList ++ rest, " [".toList ++ rest, none⟩ := rfl

theorem read_openBracket : read (" [".toList ++ rest) i =
    ⟨⟨.punct "[", i + 1, i + 2, false⟩, '[' :: rest, rest, none⟩ := rfl

theorem read_for : read ("for(let [".toList ++ rest) i =
    ⟨⟨.word "for" false, i, i + 3, false⟩, "for(let [".toList ++ rest, '(' :: ("let [".toList ++ rest),
      none⟩ := rfl

end Lexeme

namespace Parser

variable {α : Type} {g : Grammar} {u : Unit} {text : String}

theorem expect_ok (h : expect text s = .ok u s') :
    s.token.lexeme = .punct text ∧ advance s = .ok () s' := by
  unfold expect at h
  rw [isPunct_run, ite_run] at h
  split at h
  · next hp => exact ⟨eq_of_beq hp, h⟩
  · exact absurd h unexpected_ne_ok

theorem eat_of_ne (h : s.token.lexeme ≠ .punct text) : eat text s = .ok false s := by
  unfold eat
  rw [isPunct_run, ite_run, if_neg (by simpa using h)]
  rfl

/-! ## A call -/

/-- The arguments of a call, behind the parenthesis that opens them and up to the one that closes them. -/
def argumentItems (g : Grammar) : Parser (List Arg) := many do
  if ← isPunct ")" then return none
  let a ← argument g
  if !(← isPunct ")") then expect ","
  return some a

/-- Arguments stand between two parentheses. -/
theorem callArguments_ok {args : List Arg} (h : callArguments g s = .ok args s')
    (hs : Front lang s ('(' :: rest) i) : ∃ s₁ s₂, Front lang s₁ rest (i + 1) ∧
      argumentItems g s₁ = .ok args s₂ ∧ s₂.token.lexeme = .punct ")" ∧
      s'.lastStop = s₂.token.stop := by
  obtain ⟨u, s₀, hopen, hrest⟩ := bind_eq_ok.1 h
  have hs₀ := hs.next Lexeme.read_openParen (expect_ok hopen).2
  obtain ⟨s₃, hlist, rfl⟩ := inMode_ok hrest
  obtain ⟨args', s₂, hitems, hclose⟩ := bind_eq_ok.1 hlist
  obtain ⟨u', s₄, hexpect, hpure⟩ := bind_eq_ok.1 hclose
  obtain ⟨rfl, rfl⟩ := pure_ok hpure
  obtain ⟨hparen, hadv⟩ := expect_ok hexpect
  refine ⟨_, s₂, ?_, hitems, hparen, ?_⟩
  · exact hs₀.congr hs₀.lang
  · show s₄.lastStop = _
    exact advance_ok hadv

theorem simpleLiteral_ok {e : Expr} (hs : s.token.lexeme = .number)
    (h : simpleLiteral s = .ok e s') :
    e = .number ⟨s.token.start, s.token.stop⟩ ∧ advance s = .ok () s' := by
  unfold simpleLiteral at h
  rw [token_run] at h
  obtain ⟨u, s₁, hadv, hpure⟩ := bind_eq_ok.1 h
  obtain ⟨rfl, rfl⟩ := pure_ok hpure
  rw [hs]
  exact ⟨rfl, hadv⟩

theorem callLink_number {first : Nat} {span : Span} {types : List Expr} {e : Expr}
    (h : callLink g first (.number span) types s = .ok e s') :
    ∃ args, e = .call ⟨first, s'.lastStop⟩ (.number span) args types ∧
      callArguments g s = .ok args s' := by
  obtain ⟨args, s₁, hargs, hrest⟩ := bind_eq_ok.1 h
  rw [spanFrom_run] at hrest
  obtain ⟨rfl, rfl⟩ := pure_ok hrest
  exact ⟨args, rfl, hargs⟩

theorem isLinkOf_call {obj callee : Expr} {span : Span} {args : List Arg} {types : List Expr}
    (h : IsLinkOf obj (.call span callee args types)) : obj = callee := by
  rcases h with ⟨kind, span', parts, heq⟩ | ⟨span', args', types', heq⟩
  · exact nomatch heq
  · exact (Expr.call.inj heq).2.1.symm

theorem not_isLinkOf_number {obj : Expr} {span : Span} : ¬ IsLinkOf obj (.number span) := by
  rintro (⟨kind, span', parts, heq⟩ | ⟨span', args', types', heq⟩)
  · exact nomatch heq
  · exact nomatch heq

/-- What starts with a number and a parenthesis starts with the call of that number, and is this call or
ends with a further link. -/
theorem leftHandSide_zero {e : Expr} (h : leftHandSide g s = .ok e s')
    (hs : Front lang s ('0' :: '(' :: rest) i) : ∃ args s₁ s₂ s₃, Front lang s₁ rest (i + 2) ∧
      argumentItems g s₁ = .ok args s₂ ∧ s₂.token.lexeme = .punct ")" ∧
      s₃.lastStop = s₂.token.stop ∧
      (e = .call ⟨i, s₃.lastStop⟩ (.number ⟨i, i + 1⟩) args [] ∧ s' = s₃ ∨
        ∃ obj, IsLinkOf obj e ∧ ∀ span, obj ≠ .number span) := by
  have htoken : s.token = ⟨.number, i, i + 1, false⟩ := by rw [hs.token, Lexeme.read_zero]
  have hlexeme : s.token.lexeme = .number := by rw [htoken]
  unfold leftHandSide at h
  rw [start_run, lexeme_run, hlexeme] at h
  dsimp only at h
  obtain ⟨base, s₀, hbase, hrest⟩ := bind_eq_ok.1 h
  unfold primary at hbase
  rw [token_run, hlexeme] at hbase
  obtain ⟨rfl, hadv⟩ := simpleLiteral_ok hlexeme hbase
  have hs₀ := hs.next Lexeme.read_zero hadv
  rw [htoken] at hrest
  obtain ⟨x, s₃, hlink, hmore⟩ := bind_eq_ok.1 (show (link g i false _ >>= _) s₀ = _ from hrest)
  unfold link at hlink
  rw [lexeme_run, hs₀.lexeme Lexeme.read_openParen] at hlink
  obtain ⟨e', s₄, hcall, hsome⟩ := bind_eq_ok.1 hlink
  obtain ⟨rfl, rfl⟩ := pure_ok hsome
  obtain ⟨args, rfl, hargs⟩ := callLink_number hcall
  obtain ⟨s₁, s₂, hs₁, hitems, hparen, hstop⟩ := callArguments_ok hargs hs₀
  refine ⟨args, s₁, s₂, s₄, hs₁, hitems, hparen, hstop, ?_⟩
  rcases linksUpTo_ok (show linksUpTo _ _ _ _ _ _ = _ from hmore) with ⟨rfl, rfl⟩ | ⟨obj, hobj, hlast⟩
  · exact .inl ⟨rfl, rfl⟩
  · refine .inr ⟨obj, hobj, ?_⟩
    rintro span rfl
    rcases hlast with heq | ⟨obj', hobj'⟩
    · exact nomatch heq
    · exact not_isLinkOf_number hobj'

/-- What starts with a number and a parenthesis, and is a call of a number, is the call that starts
there. -/
theorem leftHandSide_call {span numberSpan : Span} {args : List Arg} {types : List Expr}
    (h : leftHandSide g s = .ok (.call span (.number numberSpan) args types) s')
    (hs : Front lang s ('0' :: '(' :: rest) i) : types = [] ∧ numberSpan = ⟨i, i + 1⟩ ∧
      span = ⟨i, s'.lastStop⟩ ∧ ∃ s₁ s₂, Front lang s₁ rest (i + 2) ∧
        argumentItems g s₁ = .ok args s₂ ∧ s₂.token.lexeme = .punct ")" ∧
        s'.lastStop = s₂.token.stop := by
  obtain ⟨args', s₁, s₂, s₃, hs₁, hitems, hparen, hstop, ⟨heq, rfl⟩ | ⟨obj, hobj, hne⟩⟩ :=
    leftHandSide_zero h hs
  · obtain ⟨rfl, hnumber, rfl, rfl⟩ := Expr.call.inj heq
    obtain rfl := Expr.number.inj hnumber
    exact ⟨rfl, rfl, rfl, s₁, s₂, hs₁, hitems, hparen, hstop⟩
  · exact absurd (isLinkOf_call hobj) (hne numberSpan)

theorem leftHandSide_zero_ne_ident {id : Ident} (hs : Front lang s ('0' :: '(' :: rest) i) :
    leftHandSide g s ≠ .ok (.ident id) s' := by
  intro h
  obtain ⟨args, s₁, s₂, s₃, -, -, -, -, ⟨heq, -⟩ | ⟨obj, ⟨kind, span, parts, heq⟩ | hcall, -⟩⟩ :=
    leftHandSide_zero h hs
  · exact nomatch heq
  · exact nomatch heq
  · obtain ⟨span, args, types, heq⟩ := hcall
    exact nomatch heq

/-! ## A function -/

/-- The statements of a body, behind the brace that opens it and up to the one that closes it. -/
def bodyStatements (g : Grammar) : Parser (List Stmt) := do
  let directives ← many (directive g)
  let body ← many do
    if (← isPunct "\x7d") || (← atEnd) then return none
    return some (← g.statement)
  return directives ++ body

theorem recover_recovered {index : Nat} (h : recover index s = .ok u s') : s'.recovered ≠ none := by
  obtain ⟨-, rfl⟩ := EStateM.Result.ok.inj h
  show (s.recovered <|> some index) ≠ none
  cases s.recovered <;> simp

theorem statementsToBrace_ok {body : List Stmt} (h : statementsToBrace g s = .ok body s')
    (hclean : s'.recovered = none) : ∃ s₂, many (do
        if (← isPunct "\x7d") || (← atEnd) then return none
        return some (← g.statement)) s = .ok body s₂ ∧ s₂.token.lexeme = .punct "\x7d" ∧
      s'.lastStop = s₂.token.stop := by
  obtain ⟨body', s₂, hbody, hrest⟩ := bind_eq_ok.1 h
  rw [atEnd_run, ite_run] at hrest
  split at hrest
  · rw [start_run] at hrest
    obtain ⟨u, s₃, hrecover, hpure⟩ := bind_eq_ok.1 hrest
    obtain ⟨rfl, rfl⟩ := pure_ok hpure
    exact absurd hclean (recover_recovered hrecover)
  · obtain ⟨u, s₃, hexpect, hpure⟩ := bind_eq_ok.1 hrest
    obtain ⟨rfl, rfl⟩ := pure_ok hpure
    obtain ⟨hbrace, hadv⟩ := expect_ok hexpect
    exact ⟨s₂, hbody, hbrace, advance_ok hadv⟩

/-- The statements of a body stand between two braces. -/
theorem functionBody_ok {f : Mode → Mode} {body : List Stmt}
    (h : functionBody g f s = .ok body s') (hs : Front lang s ('\x7b' :: rest) i)
    (hf : (f s.mode).lang = s.mode.lang) (hclean : s'.recovered = none) :
    ∃ s₁ s₂, Front lang s₁ rest (i + 1) ∧ bodyStatements g s₁ = .ok body s₂ ∧
      s₂.token.lexeme = .punct "\x7d" ∧ s'.lastStop = s₂.token.stop := by
  obtain ⟨s₃, hrun, rfl⟩ := inMode_ok h
  obtain ⟨u, s₁, hopen, hrest⟩ := bind_eq_ok.1 hrun
  have hs₁ := (hs.congr (a := s.arrowStart) (hf.trans hs.lang)).next Lexeme.read_openBrace
    (expect_ok hopen).2
  obtain ⟨directives, s₂, hdirectives, hlast⟩ := bind_eq_ok.1 hrest
  obtain ⟨statements, s₄, hstatements, hpure⟩ := bind_eq_ok.1 hlast
  obtain ⟨rfl, rfl⟩ := pure_ok hpure
  obtain ⟨s₅, hmany, hbrace, hstop⟩ := statementsToBrace_ok hstatements hclean
  refine ⟨s₁, s₅, hs₁, ?_, hbrace, hstop⟩
  unfold bodyStatements
  rw [bind_run hdirectives, bind_run hmany]
  rfl

/-! ## The parameter of an event -/

theorem many_none {step : Parser (Option α)} (h : step s = .ok none s) : many step s = .ok [] s := by
  unfold many
  rw [get_run]
  exact bind_run h

/-- A step that gives one thing, and nothing behind it, makes a list of one. -/
theorem many_ok_once {step : Parser (Option α)} {a : α} {as : List α} (h : many step s = .ok as s')
    (hstep : ∀ {x s₁}, step s = .ok x s₁ → x = some a ∧ step s₁ = .ok none s₁) :
    as = [a] ∧ step s = .ok (some a) s' := by
  unfold many at h
  rw [get_run] at h
  obtain ⟨x, s₁, hx, hrest⟩ := bind_eq_ok.1 h
  obtain ⟨rfl, hnone⟩ := hstep hx
  obtain ⟨as', s₂, hmore, hpure⟩ := bind_eq_ok.1 (show (manyUpTo step _ >>= _) s₁ = _ from hrest)
  obtain ⟨rfl, rfl⟩ := pure_ok hpure
  unfold manyUpTo at hmore
  rw [bind_run hnone] at hmore
  obtain ⟨rfl, rfl⟩ := pure_ok hmore
  exact ⟨rfl, hx⟩

theorem isWordOf_word {name : String} (names : List String) (h : s.token.lexeme = .word name false) :
    isWordOf names s = .ok (names.contains name) s := by
  unfold isWordOf
  rw [lexeme_run, h]
  rfl

theorem skipParameterModifiers_event (h : s.token.lexeme = .word "$event" false) :
    skipParameterModifiers s = .ok () s := by
  have hword : parameterModifiers.contains "$event" = false := by decide
  unfold skipParameterModifiers
  refine bind_run (many_none ?_)
  rw [isTyped_run, bind_run (isWordOf_word _ h), hword, Bool.not_false, Bool.or_true]
  rfl

theorem binding_word {p : Pat} {name : String} (h : (Grammar.level n).binding s = .ok p s')
    (hs : s.token.lexeme = .word name false) :
    p = .ident ⟨name, ⟨s.token.start, s.token.stop⟩⟩ ⟨s.token.start, s.token.stop⟩ ∧
      advance s = .ok () s' := by
  cases n with
  | zero => exact absurd h unexpected_ne_ok
  | succ n =>
    replace h : bindingTarget (Grammar.level n) s = .ok p s' := h
    unfold bindingTarget at h
    rw [lexeme_run, hs] at h
    obtain ⟨id, s₁, hname, hpure⟩ := bind_eq_ok.1 h
    obtain ⟨rfl, rfl⟩ := pure_ok hpure
    obtain ⟨⟨escaped, hword⟩, hspan, u, hadv⟩ := name_ok hname
    obtain ⟨rfl, -⟩ := Lexeme.word.inj (hs.symm.trans hword)
    exact ⟨by rw [← hspan], hadv⟩

theorem typeAnnotation?_of_ne (h : s.token.lexeme ≠ .punct ":") :
    typeAnnotation? g s = .ok none s := by
  unfold typeAnnotation?
  rw [isTyped_run, isPunct_run, ite_run, if_neg (by simp [h])]
  rfl

/-- Behind the last parameter there is no type and no default. -/
theorem parameterEnd_run {p : Pat} {first : Nat} (h : s.token.lexeme = .punct ")") :
    (annotated g p first >>= fun x => withDefault g x.1 first >>= fun q => pure (q, x.2)) s =
      .ok (p, []) s := by
  have hcolon : s.token.lexeme ≠ .punct ":" := by simp [h]
  have heq : s.token.lexeme ≠ .punct "=" := by simp [h]
  have hannotated : annotated g p first s = .ok (p, []) s := by
    unfold annotated
    rw [bind_run (typeAnnotation?_of_ne hcolon)]
    rfl
  have hdefault : withDefault g p first s = .ok p s := by
    unfold withDefault
    rw [bind_run (eat_of_ne heq)]
    rfl
  rw [bind_run hannotated, bind_run hdefault]
  rfl

theorem plainParameter_event {x : Pat × List Expr}
    (h : plainParameter (Grammar.level n) s = .ok x s')
    (hs : Front lang s ("$event)".toList ++ rest) i) :
    x = (eventParameter i, []) ∧ Front lang s' (')' :: rest) (i + 6) := by
  have hword : s.token.lexeme = .word "$event" false := hs.lexeme Lexeme.read_event
  have hthis : (Lexeme.word "$event" false == .word "this" false) = false := by decide
  unfold plainParameter at h
  rw [start_run, isTyped_run, isWord_run, hword, hthis, Bool.and_false, if_neg Bool.false_ne_true] at h
  obtain ⟨p, s₁, hbinding, hrest⟩ := bind_eq_ok.1 h
  obtain ⟨rfl, hadv⟩ := binding_word hbinding hword
  have hs₁ := hs.next Lexeme.read_event hadv
  have hparen : s₁.token.lexeme = .punct ")" := hs₁.lexeme Lexeme.read_closeParen
  replace hrest : (isTyped >>= _) s₁ = .ok x s' := hrest
  rw [isTyped_run, ite_run, bind_run (eat_of_ne (by simp [hparen])), ite_self] at hrest
  obtain ⟨rfl, rfl⟩ := EStateM.Result.ok.inj ((parameterEnd_run hparen).symm.trans hrest)
  rw [hs.token, Lexeme.read_event]
  exact ⟨rfl, hs₁⟩

theorem parameter_close (h : s.token.lexeme = .punct ")") : parameter g s = .ok none s := by
  unfold parameter
  rw [isPunct_run, atEnd_run, h]
  rfl

theorem parameter_event {x : Option (Pat × List Expr)}
    (h : parameter (Grammar.level n) s = .ok x s')
    (hs : Front lang s ("$event)".toList ++ rest) i) :
    x = some (eventParameter i, []) ∧ Front lang s' (')' :: rest) (i + 6) := by
  have hword : s.token.lexeme = .word "$event" false := hs.lexeme Lexeme.read_event
  unfold parameter at h
  rw [isPunct_run, atEnd_run, hword] at h
  rw [ite_run, if_neg (by decide), bind_run (skipParameterModifiers_event hword), isPunct_run, hword] at h
  obtain ⟨p, s₁, hp, hrest⟩ := bind_eq_ok.1 h
  obtain ⟨rfl, hs₁⟩ := plainParameter_event hp hs
  replace hrest : (isPunct ")" >>= _) s₁ = .ok x s' := hrest
  rw [isPunct_run, hs₁.lexeme Lexeme.read_closeParen] at hrest
  obtain ⟨rfl, rfl⟩ := pure_ok hrest
  exact ⟨rfl, hs₁⟩

theorem parameters_event {x : List Pat × List Expr}
    (h : parameters (Grammar.level n) s = .ok x s')
    (hs : Front lang s ("$event)".toList ++ rest) i) :
    x = ([eventParameter i], []) ∧ Front lang s' rest (i + 7) := by
  obtain ⟨ps, s₁, hps, hrest⟩ := bind_eq_ok.1 h
  obtain ⟨rfl, hone⟩ := many_ok_once hps fun hx => by
    obtain ⟨rfl, hs₂⟩ := parameter_event hx hs
    exact ⟨rfl, parameter_close (hs₂.lexeme Lexeme.read_closeParen)⟩
  obtain ⟨-, hs₁⟩ := parameter_event hone hs
  obtain ⟨u, s₂, hexpect, hpure⟩ := bind_eq_ok.1 (show (expect ")" >>= _) s₁ = _ from hrest)
  obtain ⟨rfl, rfl⟩ := pure_ok hpure
  exact ⟨rfl, hs₁.next Lexeme.read_closeParen (expect_ok hexpect).2⟩

/-! ## The function of an event -/

theorem typeParameters?_of_ne (h : s.token.lexeme ≠ .punct "<") :
    typeParameters? g s = .ok [] s := by
  unfold typeParameters?
  rw [isTyped_run, isPunct_run, ite_run, if_neg (by simp [h])]
  rfl

theorem resultType?_of_ne (h : s.token.lexeme ≠ .punct ":") : resultType? g s = .ok [] s := by
  unfold resultType?
  rw [isTyped_run, isPunct_run, ite_run, if_neg (by simp [h])]
  rfl

theorem nameHere?_of_punct (h : s.token.lexeme = .punct text) : nameHere? s = .ok none s := by
  unfold nameHere?
  rw [lexeme_run, h]
  rfl

theorem functionBody?_brace {f : Mode → Mode} (h : s.token.lexeme = .punct "\x7b") :
    functionBody? g f s = functionBody g f s := by
  unfold functionBody?
  rw [isTyped_run, isPunct_run, ite_run, if_neg (by simp [h])]

/-- A function at the parenthesis of its parameters has no name. -/
theorem functionTail_open {x : Option Ident × Func} (h : functionTail g false false s = .ok x s')
    (hopen : s.token.lexeme = .punct "(") : ∃ (f : Mode → Mode) (y : Func),
      (∀ m, (f m).lang = m.lang) ∧ x = (none, y) ∧ functionRest g f s = .ok y s' := by
  unfold functionTail at h
  rw [bind_run (eat_of_ne (by simp [hopen]))] at h
  obtain ⟨id, s₀, hid, hrest⟩ := bind_eq_ok.1 h
  obtain ⟨s₁, hrun, rfl⟩ := inMode_ok hid
  rw [bind_run (nameHere?_of_punct (by exact hopen))] at hrun
  obtain ⟨rfl, rfl⟩ := pure_ok hrun
  obtain ⟨y, s₂, hy, hpure⟩ := bind_eq_ok.1 (show (functionRest _ _ >>= _) s = _ from hrest)
  obtain ⟨rfl, rfl⟩ := pure_ok hpure
  refine ⟨_, y, ?_, rfl, hy⟩
  exact fun _ => rfl

/-- It has its parameters there, and then its body. -/
theorem functionRest_open {f : Mode → Mode} {x : Func} (h : functionRest g f s = .ok x s')
    (hopen : s.token.lexeme = .punct "(") : ∃ params types result body s₁ s₂ s₃,
      x = .mk params body ∧ advance { s with mode := f s.mode } = .ok () s₁ ∧
      parameters g s₁ = .ok (params, types) s₂ ∧
      resultType? g { s₂ with mode := s.mode } = .ok result s₃ ∧
      functionBody? g f s₃ = .ok body s' := by
  unfold functionRest at h
  rw [bind_run (typeParameters?_of_ne (by simp [hopen]))] at h
  obtain ⟨params, s₀, hparams, hrest⟩ := bind_eq_ok.1 h
  obtain ⟨s₂, hrun, rfl⟩ := inMode_ok hparams
  obtain ⟨u, s₁, hexpect, hlist⟩ := bind_eq_ok.1 hrun
  obtain ⟨⟨params', types⟩, s₃, hx, hpure⟩ := bind_eq_ok.1 hlist
  obtain ⟨rfl, rfl⟩ := pure_ok hpure
  obtain ⟨result, s₄, hresult, hlast⟩ := bind_eq_ok.1 hrest
  obtain ⟨body, s₅, hbody, hpure⟩ := bind_eq_ok.1 hlast
  obtain ⟨rfl, rfl⟩ := pure_ok hpure
  exact ⟨_, _, _, _, s₁, s₃, s₄, rfl, (expect_ok hexpect).2, hx, hresult, hbody⟩

/-- The parameter and the statements of the function of an event. -/
theorem functionTail_event {x : Option Ident × Func}
    (h : functionTail (Grammar.level n) false false s = .ok x s')
    (hs : Front lang s ('(' :: ("$event)".toList ++ '\x7b' :: rest)) i) (hclean : s'.recovered = none) :
    ∃ body s₁ s₂, x = (none, .mk [eventParameter (i + 1)] body) ∧ Front lang s₁ rest (i + 9) ∧
      bodyStatements (Grammar.level n) s₁ = .ok body s₂ ∧ s₂.token.lexeme = .punct "\x7d" ∧
      s'.lastStop = s₂.token.stop := by
  have hopen : s.token.lexeme = .punct "(" := hs.lexeme Lexeme.read_openParen
  obtain ⟨f, y, hf, rfl, hy⟩ := functionTail_open h hopen
  obtain ⟨params, types, result, body, s₁, s₂, s₃, rfl, hadv, hparams, hresult, hbody⟩ :=
    functionRest_open hy hopen
  have hs₁ : Front lang s₁ ("$event)".toList ++ '\x7b' :: rest) (i + 1) :=
    (hs.congr (a := s.arrowStart) ((hf s.mode).trans hs.lang)).next Lexeme.read_openParen hadv
  obtain ⟨heq, hs₂⟩ := parameters_event hparams hs₁
  obtain ⟨rfl, rfl⟩ := Prod.mk.inj heq
  have hbrace : s₂.token.lexeme = .punct "\x7b" := hs₂.lexeme Lexeme.read_openBrace
  have hcolon : s₂.token.lexeme ≠ .punct ":" := by simp [hbrace]
  obtain ⟨-, rfl⟩ := EStateM.Result.ok.inj ((resultType?_of_ne (by exact hcolon)).symm.trans hresult)
  rw [functionBody?_brace (by exact hbrace)] at hbody
  obtain ⟨s₄, s₅, hs₄, hstatements, hclose, hstop⟩ :=
    functionBody_ok hbody (hs₂.congr (a := s₂.arrowStart) hs.lang) (hf _) hclean
  exact ⟨body, s₄, s₅, rfl, hs₄, hstatements, hclose, hstop⟩

/-! ## Operands as whole scripts -/

/-- A script that is one operand was read as an operand from its start on. -/
theorem parse_operand {span : Span} {e : Expr} (he : e.isTight = true)
    (h : parse lang cs = .ok [.expr span e])
    (hstatement : ∀ g, anyStatement g true (.ofChars lang cs) =
      expressionStatement g (.ofChars lang cs))
    (hident : ∀ {k s₁ s₂ id}, Front lang s₁ cs 0 →
      unaryExpr (Grammar.level k) s₁ ≠ .ok (.ident id) s₂)
    (hless : (ParseState.ofChars lang cs).token.lexeme ≠ .punct "<") :
    ∃ k s₁ s₂, Front lang s₁ cs 0 ∧ unaryExpr (Grammar.level (k + 1)) s₁ = .ok e s₂ ∧
      s₂.recovered = none ∧ IsLast cs s₂.lastStop := by
  have hat := ParseState.ofChars_at lang cs
  obtain ⟨s', hrun, heof, hclean⟩ := parse_ok_singleton h
  replace hrun : anyStatement (Grammar.level (4 * cs.length + 12 + 3)) true (.ofChars lang cs) =
    .ok (.expr span e) s' := hrun
  have hs' := hat.after (fun _ => anyStatement_reads (Grammar.level_reads _) true) hrun
  rw [hstatement] at hrun
  obtain ⟨e', s₁, hwhole, hlast⟩ := expressionStatement_ok he hrun
  have hs₁ := hat.after (fun _ => wholeExpression_reads (Grammar.level_reads _)) hwhole
  have hfront : Front lang { ParseState.ofChars lang cs with
      mode := { (ParseState.ofChars lang cs).mode with allowsIn := true },
      arrowStart := some (ParseState.ofChars lang cs).token.start } cs 0 :=
    (Front.ofChars lang cs).congr rfl
  rcases hlast with ⟨id, rfl⟩ | ⟨rfl, -, hsemicolon⟩
  · obtain ⟨s₂, hunary, -⟩ := wholeExpression_ok rfl rfl hless hwhole
    exact absurd hunary (hident hfront)
  · obtain ⟨s₂, hunary, rfl⟩ := wholeExpression_ok he rfl hless hwhole
    obtain ⟨-, hbefore⟩ := semicolon_moves.run hs₁ hsemicolon
    have hlast := isLast_of_semicolon hs₁ hs' hsemicolon heof
    refine ⟨4 * cs.length + 12, _, s₂, hfront, hunary, ?_, hlast⟩
    cases hs₂ : s₂.recovered with
    | none => rfl
    | some index =>
      have hsome := hbefore.recovered (Option.isSome_of_eq_some hs₂)
      rw [hclean] at hsome
      exact absurd hsome Bool.false_ne_true

theorem unaryExpr_number (h : s.token.lexeme = .number) :
    unaryExpr g s = unaryExpr.suffixed g s.token.start s := by
  unfold unaryExpr
  rw [start_run, lexeme_run, h]

theorem expressionStatement_of_number (h : s.token.lexeme = .number) :
    anyStatement g true s = expressionStatement g s := by
  unfold anyStatement
  rw [start_run, lexeme_run, h]

theorem expressionStatement_of_void (h : s.token.lexeme = .word "void" false) :
    anyStatement g true s = expressionStatement g s := by
  have hasync : atAsyncFunction s = .ok false s := by
    unfold atAsyncFunction
    rw [isWord_run, h]
    rfl
  unfold anyStatement
  rw [start_run, lexeme_run, h]
  show wordStatement g true "void" s = _
  unfold wordStatement
  rw [start_run]
  exact bind_run hasync

/-- What `void` starts is its operation on the operand that follows. -/
theorem unaryExpr_void {e : Expr} (h : unaryExpr g s = .ok e s')
    (hs : s.token.lexeme = .word "void" false) : ∃ inner s₁, advance s = .ok () s₁ ∧
      prefixOperand g s₁ = .ok inner s' ∧ e = .unary ⟨s.token.start, s'.lastStop⟩ true inner := by
  unfold unaryExpr at h
  rw [start_run, lexeme_run, hs] at h
  obtain ⟨u, s₁, hadv, hrest⟩ := bind_eq_ok.1 h
  obtain ⟨inner, s₂, hinner, hspan⟩ := bind_eq_ok.1 hrest
  rw [spanFrom_run] at hspan
  obtain ⟨rfl, rfl⟩ := pure_ok hspan
  exact ⟨inner, s₁, hadv, hinner, rfl⟩

theorem not_isLinkOf_fn {obj : Expr} {span : Span} {name : Option Ident} {f : Func} :
    ¬ IsLinkOf obj (.fn span name f) := by
  rintro (⟨kind, span', parts, heq⟩ | ⟨span', args, types, heq⟩)
  · exact nomatch heq
  · exact nomatch heq

/-- A function behind `function` is the operand that starts there. -/
theorem leftHandSide_function {span : Span} {name : Option Ident} {f : Func}
    (h : leftHandSide g s = .ok (.fn span name f) s')
    (hs : s.token.lexeme = .word "function" false) : span = ⟨s.token.start, s'.lastStop⟩ ∧
      ∃ s₁, advance s = .ok () s₁ ∧ functionTail g false false s₁ = .ok (name, f) s' := by
  unfold leftHandSide at h
  rw [start_run, lexeme_run, hs] at h
  obtain ⟨base, s₀, hbase, hrest⟩ := bind_eq_ok.1 (show (primary g >>= _) s = _ from h)
  unfold primary at hbase
  rw [token_run, hs] at hbase
  obtain ⟨u, s₁, hadv, htail⟩ := bind_eq_ok.1 hbase
  obtain ⟨⟨name', f'⟩, s₂, hx, hspan⟩ := bind_eq_ok.1 htail
  obtain ⟨rfl, rfl⟩ := pure_ok (show (spanFrom _ >>= fun _ => pure _) s₂ = _ from hspan)
  rcases linksUpTo_ok (show linksUpTo _ _ _ _ _ _ = _ from hrest) with ⟨heq, rfl⟩ | ⟨obj, hobj, -⟩
  · obtain ⟨rfl, rfl, rfl⟩ := Expr.fn.inj heq
    exact ⟨rfl, s₁, hadv, hx⟩
  · exact absurd hobj not_isLinkOf_fn

/-- The same behind an operator. -/
theorem functionOperand_ok {k : Nat} {span : Span} {name : Option Ident} {f : Func}
    (h : prefixOperand (Grammar.level (k + 1)) s = .ok (.fn span name f) s')
    (hs : s.token.lexeme = .word "function" false) : span = ⟨s.token.start, s'.lastStop⟩ ∧
      ∃ s₁, advance s = .ok () s₁ ∧
        functionTail (Grammar.level k) false false s₁ = .ok (name, f) s' := by
  rcases orElseFrom_ok h with hrun | ⟨index, s₁, hhandle⟩
  · replace hrun : unaryExpr (Grammar.level k) s = .ok (.fn span name f) s' := hrun
    unfold unaryExpr at hrun
    rw [start_run, lexeme_run, hs] at hrun
    exact leftHandSide_function (suffixed_ok rfl hrun) hs
  · obtain ⟨u, s₂, -, hpure⟩ := bind_eq_ok.1 hhandle
    exact nomatch (pure_ok hpure).1

/-- A script that is a function behind `void` has that function from its parenthesis on. -/
theorem parse_voidFunction {span voidSpan fnSpan : Span} {name : Option Ident} {f : Func}
    (h : parse lang ("void function(".toList ++ rest) =
      .ok [.expr span (.unary voidSpan true (.fn fnSpan name f))]) :
    ∃ k s₁ s₂, Front lang s₁ ('(' :: rest) 13 ∧
      functionTail (Grammar.level k) false false s₁ = .ok (name, f) s₂ ∧
      voidSpan = ⟨0, s₂.lastStop⟩ ∧ fnSpan = ⟨5, s₂.lastStop⟩ ∧ s₂.recovered = none ∧
      IsLast ("void function(".toList ++ rest) s₂.lastStop := by
  have hvoid : ∀ {s}, Front lang s ("void function(".toList ++ rest) 0 →
      s.token.lexeme = .word "void" false := fun hs => hs.lexeme Lexeme.read_void
  have hfirst := hvoid (Front.ofChars lang _)
  obtain ⟨k, s₁, s₂, hs₁, hunary, hend⟩ := parse_operand rfl h
    (fun g => expressionStatement_of_void hfirst)
    (fun hs hrun => by
      obtain ⟨inner, s₂, -, -, heq⟩ := unaryExpr_void hrun (hvoid hs)
      exact nomatch heq)
    (by rw [hfirst]; exact nofun)
  obtain ⟨inner, s₄, hadv, hoperand, heq⟩ := unaryExpr_void hunary (hvoid hs₁)
  obtain ⟨rfl, -, rfl⟩ := Expr.unary.inj heq
  have hs₄ := hs₁.next Lexeme.read_void hadv
  obtain ⟨rfl, s₅, hadv', htail⟩ := functionOperand_ok hoperand (hs₄.lexeme Lexeme.read_function)
  have hs₅ := hs₄.next Lexeme.read_function hadv'
  rw [hs₁.token, hs₄.token, Lexeme.read_void, Lexeme.read_function]
  exact ⟨k, s₅, s₂, hs₅, htail, rfl, rfl, hend⟩

/-! ## What is read in front of a bracket -/

theorem argumentItems_reads {t : Stretch} (hg : g.Reads t) : t.Reads True (argumentItems g) := by
  refine many_reads fun {pre} => ?_
  refine .step (isPunct_moves _) fun _ => .ite (fun _ => .pure fun _ => Stretch.all_none) fun _ => ?_
  refine .bind (argument_reads hg) fun a => .step (isPunct_moves _) fun _ => ?_
  extract_lets rest
  have hrest : ∀ u, t.Reads (t.All a ∧ pre) (rest u) := fun _ => .pure fun ha => Stretch.all_some.2 ha.1
  exact .ite (fun _ => .step (expect_moves _) hrest) fun _ => hrest ()

theorem bodyStatements_reads {t : Stretch} (hg : g.Reads t) : t.Reads True (bodyStatements g) := by
  unfold bodyStatements
  refine .bind (many_reads (directive_reads hg)) fun _ => .bind (many_reads fun {pre} => ?_) fun _ => ?_
  · refine .step (isPunct_moves _) fun _ => .step atEnd_moves fun _ => ?_
    refine .ite (fun _ => .pure fun _ => Stretch.all_none) fun _ => ?_
    exact .bind hg.statement fun _ => .pure fun h => by simp [h]
  · exact .pure fun h => by simp [h]

/-- What is read up to a bracket is made of words in front of that. -/
theorem words_upTo {α : Type} [HasIdents α] {p : Parser α} {a : α} {text : String} {close : Char}
    (htext : text.toList = [close]) (hp : ∀ t : Stretch, t.Reads True p) (hs : s.At cs)
    (h : p s = .ok a s') (hclose : s'.token.lexeme = .punct text) :
    CharAt cs s'.token.start close ∧ Words cs a s.lastStop s'.token.start := by
  obtain ⟨hs', hle, hall⟩ := Stretch.Reads.all_of_run hp hs (Nat.le_refl _) h
  exact ⟨hs'.charAt hclose htext, _, hle, hs'.le_start, hall⟩

theorem parameters_standUpTo {params : List Pat} {types : List Expr} (hs : s.At cs)
    (h : parameters (Grammar.level n) s = .ok (params, types) s') :
    StandUpTo cs params s.lastStop ')' := by
  obtain ⟨ps, s₁, hps, hrest⟩ := bind_eq_ok.1 h
  obtain ⟨u, s₂, hinner, hlast⟩ := bind_eq_ok.1 hrest
  obtain ⟨u', s₃, hexpect, hpure⟩ := bind_eq_ok.1 hlast
  obtain ⟨heq, rfl⟩ := pure_ok hpure
  obtain ⟨rfl, rfl⟩ := Prod.mk.inj heq
  obtain ⟨hs₁, hstand⟩ := parameters_stand hs hps
  obtain ⟨hs₂, hbefore⟩ := (recoverInnerRests_moves _).run hs₁ hinner
  exact ⟨s₂.token.start, patsStand_mono hstand (Nat.le_trans hbefore.le hs₂.le_start),
    hs₂.charAt (expect_ok hexpect).1 rfl⟩

theorem arrayPattern_standUpTo {p : Pat} (hs : s.At cs)
    (h : arrayPattern (Grammar.level n) s = .ok p s') : ∃ span elements,
      p = .array span elements ∧ StandUpTo cs elements s.token.stop ']' := by
  unfold arrayPattern at h
  rw [start_run] at h
  obtain ⟨u, s₁, hopen, hrest⟩ := bind_eq_ok.1 h
  obtain ⟨elements, s₂, helements, hrest'⟩ := bind_eq_ok.1 hrest
  obtain ⟨u', s₃, hinner, hlast⟩ := bind_eq_ok.1 hrest'
  obtain ⟨u'', s₄, hclose, hspan⟩ := bind_eq_ok.1 hlast
  rw [spanFrom_run] at hspan
  obtain ⟨rfl, rfl⟩ := pure_ok hspan
  obtain ⟨hs₁, -⟩ := (expect_moves "[").run hs hopen
  obtain ⟨hs₂, hstand⟩ := elements_stand hs₁ helements
  obtain ⟨hs₃, hbefore⟩ := (recoverInnerRests_moves _).run hs₂ hinner
  rw [advance_ok (expect_ok hopen).2] at hstand
  exact ⟨_, elements, rfl, s₃.token.start,
    patsStand_mono hstand (Nat.le_trans hbefore.le hs₃.le_start), hs₃.charAt (expect_ok hclose).1 rfl⟩

/-! ## The head of a loop -/

theorem annotated_array {span : Span} {elements : List Pat} (first : Nat) :
    Gives (fun x => ∃ span', x.1 = .array span' elements) (annotated g (.array span elements) first) := by
  unfold annotated
  refine .bind fun x => ?_
  split
  · exact .bind fun _ => .pure ⟨_, rfl⟩
  · exact .pure ⟨_, rfl⟩

/-- The elements of a pattern that is declared at a bracket are inside of that. -/
theorem declarator_standUpTo {word : String} {inLoop : Bool} {span : Span} {elements : List Pat}
    {init : List Expr} (hs : Front lang s (" [".toList ++ rest) i) (hat : s.At cs)
    (h : declarator (Grammar.level n) word inLoop false s = .ok (.mk (.array span elements) init) s') :
    StandUpTo cs elements (i + 2) ']' := by
  have htoken : s.token = ⟨.punct "[", i + 1, i + 2, false⟩ := by rw [hs.token, Lexeme.read_openBracket]
  have hopen : s.token.lexeme = .punct "[" := congrArg ScriptToken.lexeme htoken
  unfold declarator at h
  rw [start_run, isWord_run, hopen, show (Lexeme.punct "[" == .word "let" false) = false from by decide,
    Bool.and_false, if_neg Bool.false_ne_true] at h
  obtain ⟨p, s₁, hbinding, hrest⟩ := bind_eq_ok.1 h
  cases n with
  | zero => exact absurd hbinding unexpected_ne_ok
  | succ n =>
    replace hbinding : bindingTarget (Grammar.level n) s = .ok p s₁ := hbinding
    unfold bindingTarget at hbinding
    rw [lexeme_run, hopen] at hbinding
    obtain ⟨span', elements', rfl, hinside⟩ := arrayPattern_standUpTo hat hbinding
    obtain ⟨⟨p, types⟩, s₂, hannotated, hlast⟩ :=
      bind_eq_ok.1 (show (annotated _ _ _ >>= _) s₁ = _ from hrest)
    obtain ⟨span'', hp⟩ := (annotated_array _).result hannotated
    obtain rfl : p = .array span'' elements' := hp
    obtain ⟨init', heq⟩ := Gives.result
      (Q := fun d : Declarator => ∃ init, d = .mk (.array span'' elements') init)
      (.bind fun _ => .ite (.pure ⟨_, rfl⟩) (.bind fun _ => .ite (.bind fun _ => .pure ⟨_, rfl⟩)
        (.ite (.pure ⟨_, rfl⟩) (.bind fun _ => .ite (.bind fun _ => .pure ⟨_, rfl⟩) (.throw _)))))
      (show (isWordOf ["in", "of"] >>= _) s₂ = _ from hlast)
    obtain ⟨hpat, -⟩ := Declarator.mk.inj heq
    obtain ⟨-, rfl⟩ := Pat.array.inj hpat
    rwa [htoken] at hinside

theorem eachRest_gives (head : ForHead) :
    Gives (fun x => ∃ isOf right, x = .each isOf head right) (eachRest g head) := by
  unfold eachRest
  exact .bind fun _ => .bind fun _ => .bind fun _ => .pure ⟨_, _, rfl⟩

theorem stepsRest_gives (init : List Stmt) :
    Gives (fun x => ∃ exprs, x = .steps init exprs) (stepsRest g init) := by
  unfold stepsRest
  refine .bind fun _ => .ite (.bind fun _ => ?_) (.bind fun _ => .bind fun _ => ?_) <;>
    exact .bind fun _ => .bind fun _ => .ite (.bind fun _ => .pure ⟨_, rfl⟩)
      (.bind fun _ => .bind fun _ => .pure ⟨_, rfl⟩)

/-- So are those of the first pattern in the head of a loop. -/
theorem declaredHead_standUpTo {isOf isVar : Bool} {span : Span} {elements : List Pat} {init : List Expr}
    {ds : List Declarator} {right : Expr} (hs : Front lang s ("let [".toList ++ rest) i)
    (hat : s.At cs)
    (h : declaredHead (Grammar.level n) s =
      .ok (.each isOf (.declaration isVar (.mk (.array span elements) init :: ds)) right) s') :
    StandUpTo cs elements (i + 5) ']' := by
  unfold declaredHead at h
  rw [start_run] at h
  obtain ⟨id, s₁, hword, hrest⟩ := bind_eq_ok.1 h
  obtain ⟨-, -, u, hadv⟩ := anyWord_ok hword
  have hs₁ := hs.next Lexeme.read_let hadv
  obtain ⟨hat₁, -⟩ := advance_moves.run hat hadv
  obtain ⟨ds', s₂, hmode, hlast⟩ := bind_eq_ok.1 (show (inMode _ _ >>= _) s₁ = _ from hrest)
  obtain ⟨s₃, hds, rfl⟩ := inMode_ok hmode
  obtain ⟨first, s₄, hfirst, hmore⟩ := bind_eq_ok.1 hds
  obtain ⟨more, s₅, -, hpure⟩ := bind_eq_ok.1 hmore
  obtain ⟨rfl, rfl⟩ := pure_ok hpure
  obtain ⟨b, hb⟩ := isWordOf_stays { s₅ with mode := s₁.mode } ["of", "in"]
  rw [bind_run hb, ite_run] at hlast
  split at hlast
  · obtain ⟨u', s₆, -, heach⟩ := bind_eq_ok.1 hlast
    obtain ⟨isOf', right', heq⟩ := (eachRest_gives _).result heach
    obtain ⟨-, hhead, -⟩ := LoopHead.each.inj heq
    obtain ⟨-, hlist⟩ := ForHead.declaration.inj hhead
    obtain ⟨rfl, -⟩ := List.cons.inj hlist
    have hs₂ := hs₁.congr (m := { s₁.mode with allowsIn := true }) (a := s₁.arrowStart) hs₁.lang
    exact declarator_standUpTo hs₂ (hat₁.congr rfl rfl rfl rfl) hfirst
  · rw [spanFrom_run] at hlast
    obtain ⟨u', s₆, -, hsteps⟩ := bind_eq_ok.1 hlast
    obtain ⟨exprs, heq⟩ := (stepsRest_gives _).result hsteps
    exact nomatch heq

theorem peek_run (s : ParseState) {q : ScriptToken → Parser α} :
    (peek >>= q) s = q (Lexeme.read s.rest s.token.stop).token s := rfl

theorem atVarDeclaration_stays (s : ParseState) : ∃ b, atVarDeclaration s = .ok b s := by
  obtain ⟨b, hb⟩ := isWordOf_stays s ["var", "const"]
  have hlet : ∃ b, atLetDeclaration s = .ok b s := by
    unfold atLetDeclaration
    rw [isWord_run, ite_run]
    split
    · exact ⟨_, rfl⟩
    · rw [peek_run]
      cases (Lexeme.read s.rest s.token.stop).token.lexeme <;> exact ⟨_, rfl⟩
  obtain ⟨b', hb'⟩ := hlet
  unfold atVarDeclaration
  rw [bind_run hb, bind_run hb']
  exact ⟨_, rfl⟩

theorem loopHead_standUpTo {isOf isVar : Bool} {span : Span} {elements : List Pat} {init : List Expr}
    {ds : List Declarator} {right : Expr} (hs : Front lang s ("let [".toList ++ rest) i)
    (hat : s.At cs)
    (h : loopHead (Grammar.level n) s =
      .ok (.each isOf (.declaration isVar (.mk (.array span elements) init :: ds)) right) s') :
    StandUpTo cs elements (i + 5) ']' := by
  obtain ⟨b, hb⟩ := atVarDeclaration_stays s
  unfold loopHead at h
  rw [bind_run hb, ite_run] at h
  split at h
  · exact declaredHead_standUpTo hs hat h
  · have hlet : s.token.lexeme = .word "let" false := hs.lexeme Lexeme.read_let
    rw [bind_run (eat_of_ne (by simp [hlet])), if_neg Bool.false_ne_true] at h
    have hother := Gives.result (Q := fun x => ∀ isOf isVar ds right,
        x ≠ .each isOf (.declaration isVar ds) right)
      (.bind fun e => .bind fun _ => .ite
        (.bind fun p => ⟨fun hrun => by
          obtain ⟨isOf, right, rfl⟩ := (eachRest_gives _).result hrun
          exact fun _ _ _ _ => nofun⟩)
        (.bind fun _ => .bind fun _ => ⟨fun hrun => by
          obtain ⟨exprs, rfl⟩ := (stepsRest_gives _).result hrun
          exact fun _ _ _ _ => nofun⟩)) h
    exact (hother _ _ _ _ rfl).elim

theorem eatWord_of_punct {word text : String} (h : s.token.lexeme = .punct text) :
    eatWord word s = .ok false s := by
  unfold eatWord
  rw [isWord_run, h]
  rfl

/-- What goes over a collection has the head of its loop behind the parenthesis. -/
theorem forStatement_forOf {span : Span} {head : ForHead} {right : Expr} {body : Stmt}
    (hs : Front lang s ("for(let [".toList ++ rest) i) (hat : s.At cs)
    (h : forStatement g s = .ok (.forEach .forOf span head right body) s') :
    ∃ s₁ s₂, Front lang s₁ ("let [".toList ++ rest) (i + 4) ∧ s₁.At cs ∧
      loopHead g s₁ = .ok (.each true head right) s₂ := by
  unfold forStatement at h
  rw [start_run] at h
  obtain ⟨u, s₁, hadv, hrest⟩ := bind_eq_ok.1 h
  have hs₁ := hs.next Lexeme.read_for hadv
  obtain ⟨hat₁, -⟩ := advance_moves.run hat hadv
  rw [start_run, bind_run (eatWord_of_punct (hs₁.lexeme Lexeme.read_openParen))] at hrest
  obtain ⟨u', s₂, hopen, hrest⟩ := bind_eq_ok.1 hrest
  have hs₂ := hs₁.next Lexeme.read_openParen (expect_ok hopen).2
  obtain ⟨hat₂, -⟩ := (expect_moves "(").run hat₁ hopen
  obtain ⟨head', s₃, hhead, hrest⟩ := bind_eq_ok.1 hrest
  obtain ⟨u'', s₄, -, hrest⟩ := bind_eq_ok.1 hrest
  obtain ⟨body', s₅, -, hrest⟩ := bind_eq_ok.1 hrest
  rw [spanFrom_run] at hrest
  refine ⟨s₂, s₃, hs₂, hat₂, ?_⟩
  cases head' with
  | steps init exprs => exact nomatch (pure_ok hrest).1
  | each isOf head' right' =>
    cases isOf with
    | false => exact nomatch (pure_ok hrest).1
    | true =>
      obtain ⟨-, -, rfl, rfl, -⟩ := Stmt.forEach.inj (pure_ok hrest).1
      exact hhead

/-- The elements of the list that a loop declares are inside of its brackets. -/
theorem parse_aliases {span listSpan : Span} {isVar : Bool} {elements : List Pat} {init : List Expr}
    {ds : List Declarator} {right : Expr} {body : Stmt}
    (h : parse lang ("for(let [".toList ++ rest) = .ok [.forEach .forOf span
      (.declaration isVar (.mk (.array listSpan elements) init :: ds)) right body]) :
    StandUpTo ("for(let [".toList ++ rest) elements 9 ']' := by
  have hfront := Front.ofChars lang ("for(let [".toList ++ rest)
  have hat := ParseState.ofChars_at lang ("for(let [".toList ++ rest)
  have hfor : (ParseState.ofChars lang ("for(let [".toList ++ rest)).token.lexeme = .word "for" false :=
    hfront.lexeme Lexeme.read_for
  obtain ⟨s', hrun, -, -⟩ := parse_ok_singleton h
  replace hrun : anyStatement (Grammar.level (4 * ("for(let [".toList ++ rest).length + 15)) true
    (.ofChars lang ("for(let [".toList ++ rest)) = .ok _ s' := hrun
  unfold anyStatement at hrun
  rw [start_run, lexeme_run, hfor] at hrun
  replace hrun : wordStatement _ true "for" _ = .ok _ s' := hrun
  unfold wordStatement at hrun
  rw [start_run] at hrun
  obtain ⟨s₁, s₂, hs₁, hat₁, hhead⟩ := forStatement_forOf hfront hat hrun
  exact loopHead_standUpTo hs₁ hat₁ hhead

/-- The parameters of a function behind `void` are inside of its parentheses. -/
theorem parse_parameters {span voidSpan fnSpan : Span} {name : Option Ident} {params : List Pat}
    {body : List Stmt}
    (h : parse lang ("void function(".toList ++ rest) =
      .ok [.expr span (.unary voidSpan true (.fn fnSpan name (.mk params body)))]) :
    StandUpTo ("void function(".toList ++ rest) params 14 ')' := by
  obtain ⟨k, s₁, s₂, hs₁, htail, -⟩ := parse_voidFunction h
  have hopen : s₁.token.lexeme = .punct "(" := hs₁.lexeme Lexeme.read_openParen
  obtain ⟨f, y, hf, heq, hy⟩ := functionTail_open htail hopen
  obtain ⟨-, rfl⟩ := Prod.mk.inj heq
  obtain ⟨params', types, result, body', s₄, s₅, s₆, hmk, hadv, hparams, -⟩ := functionRest_open hy hopen
  obtain ⟨rfl, -⟩ := Func.mk.inj hmk
  have hs₄ := (hs₁.congr (a := s₁.arrowStart) ((hf s₁.mode).trans hs₁.lang)).next Lexeme.read_openParen hadv
  have hinside := parameters_standUpTo (hs₄.at_text ⟨"void function(".toList, rfl, rfl⟩) hparams
  rwa [hs₄.stop] at hinside

end Parser

open Script.Parser

/-! ## The three shapes -/

/-- A call of a number stands in its text. -/
theorem parse_call {span callSpan number : Span} {args : List Arg} {types : List Expr}
    (h : parse lang ("0(".toList ++ rest) = .ok [.expr span (.call callSpan (.number number) args types)]) :
    CallOfNumber ("0(".toList ++ rest) callSpan number args types := by
  have hnumber : ∀ {s}, Front lang s ("0(".toList ++ rest) 0 → s.token.lexeme = .number :=
    fun hs => hs.lexeme Lexeme.read_zero
  have hfirst := hnumber (Front.ofChars lang _)
  obtain ⟨k, s₁, s₂, hs₁, hunary, -, hlast⟩ := parse_operand rfl h
    (fun g => expressionStatement_of_number hfirst)
    (fun hs hrun => by
      rw [unaryExpr_number (hnumber hs)] at hrun
      exact leftHandSide_zero_ne_ident hs (suffixed_ok rfl hrun))
    (by rw [hfirst]; exact nofun)
  rw [unaryExpr_number (hnumber hs₁)] at hunary
  obtain ⟨rfl, rfl, rfl, s₃, s₄, hs₃, hitems, hparen, hstop⟩ :=
    leftHandSide_call (suffixed_ok rfl hunary) hs₁
  have hfrom : From ("0(".toList ++ rest) 2 rest := ⟨"0(".toList, rfl, rfl⟩
  have hat := hs₃.at_text hfrom
  have hreads : ∀ t : Stretch, t.Reads True (argumentItems (Grammar.level (k + 1))) :=
    fun _ => argumentItems_reads (Grammar.level_reads _)
  obtain ⟨hclose, hwords⟩ := words_upTo rfl hreads hat hitems hparen
  rw [hs₃.stop] at hwords
  refine ⟨⟨.refl (.start _), hlast⟩, rfl, ⟨['0'], ⟨rfl, _, .start _⟩, by simp, by decide⟩, ?_⟩
  refine ⟨[], 1, s₄.token.start, ⟨rfl, _, ['0'], rfl, rfl⟩, by simp, fun _ => rfl, ⟨rest, ['0'], rfl, rfl⟩,
    hclose, ?_, hwords⟩
  exact ((hat.after hreads hitems).stop_of_punct hparen rfl rfl ▸ hstop).symm

/-- A function behind `void` stands in its text. -/
theorem parse_function {span voidSpan fnSpan : Span} {name : Option Ident} {params : List Pat}
    {body : List Stmt} (h : parse lang ("void function(".toList ++ rest) =
      .ok [.expr span (.unary voidSpan true (.fn fnSpan name (.mk params body)))]) :
    VoidFunction ("void function(".toList ++ rest) voidSpan fnSpan name params body := by
  have hparams := parse_parameters h
  obtain ⟨k, s₁, s₂, hs₁, htail, rfl, rfl, hclean, hlast⟩ := parse_voidFunction h
  have hfive : From ("void function(".toList ++ rest) 5 ("function(".toList ++ rest) :=
    ⟨"void ".toList, rfl, rfl⟩
  refine ⟨⟨.refl (.start _), hlast⟩, ⟨[' '], ⟨rfl, _, "void".toList, rfl, rfl⟩, .blank (by decide) .nil⟩,
    ⟨_, .inl hfive⟩, rfl, fun tail _ => hparams, fun tail hfrom => ?_⟩
  obtain rfl : rest = "$event)\x7b".toList ++ tail :=
    List.append_cancel_left ((hfive.unique hfrom).trans (List.append_assoc "function(".toList _ tail))
  obtain ⟨body', s₄, s₅, heq, hs₄, hbody, hbrace, hstop⟩ := functionTail_event htail hs₁ hclean
  obtain ⟨rfl, hf⟩ := Prod.mk.inj heq
  obtain ⟨rfl, rfl⟩ := Func.mk.inj hf
  have hat : s₄.At ("void function($event)\x7b".toList ++ tail) :=
    hs₄.at_text ⟨"void function($event)\x7b".toList, rfl, rfl⟩
  have hreads : ∀ t : Stretch, t.Reads True (bodyStatements (Grammar.level k)) :=
    fun _ => bodyStatements_reads (Grammar.level_reads k)
  obtain ⟨hclose, hwords⟩ := words_upTo rfl hreads hat hbody hbrace
  rw [hs₄.stop] at hwords
  refine ⟨rfl, rfl, s₅.token.start, hclose, ?_, hwords⟩
  exact ((hat.after hreads hbody).stop_of_punct hbrace rfl rfl ▸ hstop).symm

/-- What the grammar gives stands in the text. -/
theorem parse_faithful : Reader.Faithful Script.parse := ⟨parse_call, parse_function, parse_aliases⟩

end TemplateSyntax.Script
