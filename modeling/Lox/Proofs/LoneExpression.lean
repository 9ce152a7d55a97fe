import Lox.Interpreter
import Lox.Proofs.Session

namespace Lox

open Grammar

theorem Grammar.Phrase.statement {n : Nat} {ts : List Token} {e : Expr} {close : Token}
    (value : Phrase n .assignment ts e) (closes : close.kind = .semicolon) :
    Declarations (n + 2) false (ts ++ [close]) [.expression e] := by
  rw [← List.append_nil (ts ++ [close])]
  exact .cons (.statement (.expression value closes)) .nil

namespace Parser

variable {depth : Nat} {tokens : List Token} {eof : Token} {e : Expr}

def missingSemicolon (tokens : List Token) (eof : Token) : ParseError :=
  ⟨.missingMark .semicolon .afterExpression, eof, tokens.length⟩

theorem expressionStatement_fails {s m : State} (value : Phrase depth .assignment tokens e)
    (reads : s.Reads tokens m) (ends : m.rest = []) :
    expressionStatement (expression depth .assignment) s =
      fail (.missingMark .semicolon .afterExpression) m := by
  have read : expression depth .assignment s = .ok e m :=
    Phrase.accepts value s m reads (by rw [ends]; rfl)
  have fails := expectMark_fails .semicolon .afterExpression (s := m) (by rw [ends]; rfl)
  rw [expressionStatement, bind_eq read]
  simp only [bind, EStateM.bind, fails, fail_eq]

theorem declaration_fails (value : Phrase depth .assignment tokens e) :
    declaration (depth + 2) false (start tokens eof) = .ok none { start tokens eof with
      rest := [], position := tokens.length, errors := #[missingSemicolon tokens eof] } := by
  have starts : faces (start tokens eof).rest beginsExpression = true := value.begins
  have reads : (start tokens eof).Reads tokens
      { start tokens eof with rest := [], position := tokens.length } :=
    ⟨(List.append_nil _).symm, by simp [start]⟩
  have stops := expressionStatement_fails value reads rfl
  rw [← statement_of_expression false starts, fail_eq] at stops
  rw [declaration_of_statement]
  · obtain ⟨s, skipped, recovered⟩ := recover_of_error stops
    cases skipped
    exact recovered
  · exact faces_weaken (fun kind => by simp +contextual [beginsStatement]) starts

theorem parse_unterminated (value : Phrase depth .assignment tokens e) :
    parse (depth + 2) tokens eof = ([none], [missingSemicolon tokens eof]) := by
  have ended : ∀ (bound : List Token) (s : State), s.rest = [] →
      programAfter (depth + 2) bound [none] s = .ok [none] s := by
    intro bound s ends
    cases bound with
    | nil => rfl
    | cons t bound =>
        rw [programAfter, bind_eq (atEnd_eq s), ends]
        rfl
  obtain ⟨t, ts, same⟩ := List.exists_cons_of_ne_nil (List.length_pos_iff.mp value.length_pos)
  have read : program (depth + 2) (start tokens eof) = .ok [none] { start tokens eof with
      rest := [], position := tokens.length, errors := #[missingSemicolon tokens eof] } := by
    have more : (start tokens eof).rest = t :: ts := same
    rw [program, bind_eq (remaining_eq _), more, programAfter, bind_eq (atEnd_eq _), more,
      List.isEmpty_cons, if_neg Bool.false_ne_true, bind_eq (declaration_fails value),
      ended ts _ rfl]
  rw [parse, read]

theorem parseExpression_eq (value : Phrase depth .assignment tokens e) :
    parseExpression depth tokens eof = .ok e := by
  have reads : (start tokens eof).Reads tokens
      { start tokens eof with rest := [], position := tokens.length } :=
    ⟨(List.append_nil _).symm, by simp [start]⟩
  rw [parseExpression, Phrase.accepts value _ _ reads rfl]
  rfl

end Parser

namespace Program

variable {d depth : Nat} {source : String} {e : Expr}

theorem readExpression_mono (bare : readExpression d source = .ok e) (le : d ≤ depth) :
    readExpression depth source = .ok e := by
  obtain ⟨scanned, value⟩ := readExpression_derived bare
  rw [readExpression, scanned, Parser.parseExpression_eq (value.mono le)]
  rfl

theorem compile_mono {body : List Stmt} (compiled : compile d source = .ok body) (le : d ≤ depth) :
    compile depth source = .ok body := by
  obtain ⟨scanned, derived⟩ := compile_eq_ok.mp compiled
  exact compile_eq_ok.mpr ⟨scanned, derived.mono le⟩

theorem compile_unterminated (bare : readExpression d source = .ok e) (room : d + 2 ≤ depth) :
    compile depth source = .error [.parse
      (Parser.missingSemicolon (Scan.ofString source).tokens (Scan.ofString source).eof)] := by
  obtain ⟨k, rfl⟩ := Nat.exists_eq_add_of_le' room
  obtain ⟨scanned, value⟩ := readExpression_derived bare
  have parsed : Parser.parse (k + d + 2) (Scan.ofString source).tokens (Scan.ofString source).eof =
      _ := Parser.parse_unterminated (value.mono (Nat.le_add_left d k))
  rw [Nat.add_assoc] at parsed
  simp only [compile, Program.read, parsed, scanned]
  rfl

theorem compile_terminated (bare : readExpression d source = .ok e) (room : d + 2 ≤ depth) :
    compile depth (source ++ "\n;") = .ok [.expression e] := by
  obtain ⟨scanned, value⟩ := readExpression_derived bare
  have closed : ∀ e ∈ (Scan.ofChars source.toList).errors, e.cause.isOpen = false := by
    rw [Scan.ofString] at scanned
    simp [scanned]
  have text : (source ++ "\n;").toList = source.toList ++ '\n' :: [';'] := by simp
  have mark : Scan.ofChars [';'] = ⟨[⟨.semicolon, ";", .nil, 1⟩], [], 1⟩ := rfl
  have scan := Scan.ofChars_append [';'] closed
  rw [← text, mark] at scan
  rw [compile_eq_ok]
  unfold Scan.ofString at *
  rw [scan]
  exact ⟨by simp [scanned], (value.statement rfl).mono room⟩

/-- No text is an expression and a program, whatever room there is for either. -/
theorem compile_ne_ok (bare : readExpression d source = .ok e) (body : List Stmt) :
    compile depth source ≠ .ok body := by
  intro compiled
  have whole := compile_mono compiled (Nat.le_max_left depth (d + 2))
  rw [compile_unterminated bare (Nat.le_max_right depth (d + 2))] at whole
  cases whole

end Program

def Interpreter.unlogged (i : Interpreter) : Interpreter := { i with log := #[] }

namespace Session

variable {α β : Type}

/-- What work answers and leaves behind, but for the log. -/
def effect (work : Session α) (i : Interpreter) : Except Failure α × Interpreter :=
  (work.perform i).map id Interpreter.unlogged

theorem effect_onMachine_log (work : Context → Eval α) (i : Interpreter) (log : Array Event) :
    effect (onMachine work) { i with log } = effect (onMachine work) i := by
  unfold effect perform onMachine
  by_cases large : Settings.maxFrameBudget < Settings.frameBudget i.context.limit
  · simp only [if_pos large]
    rfl
  · simp only [if_neg large]
    cases work i.context { i.machine with depth := 0 } with
    | ok a m => rfl
    | error stop m => cases stop <;> rfl

theorem effect_map_log (f : α → β) {work : Session α} {i j : Interpreter}
    (same : effect work i = effect work j) : effect (f <$> work) i = effect (f <$> work) j := by
  simp only [effect, perform, Functor.map, EStateM.map] at same ⊢
  cases first : work i <;> cases second : work j <;> simp_all

theorem effect_value_log (fuel : Nat) (e : Expr) (i : Interpreter) (log : Array Event) :
    effect (some <$> evaluateGlobal fuel e) { i with log } =
      effect (some <$> evaluateGlobal fuel e) i :=
  effect_map_log some (effect_onMachine_log _ i log)

variable {source : String} {e : Expr} {i : Interpreter}

theorem effect_enter_statement
    (compiled : Program.compile i.context.nesting source = .ok [.expression e]) (fuel : Nat) :
    effect (enter fuel source) i = effect (some <$> evaluateGlobal fuel e) i := by
  obtain ⟨log, reads⟩ := read_eq source i
  obtain ⟨accepted, same⟩ := Program.compile_parts compiled
  rw [← effect_value_log fuel e i log]
  unfold effect perform enter
  rw [bind_eq reads, if_pos accepted, same]

theorem enter_of_rejected {errors : List SyntaxError}
    (rejected : Program.compile i.context.nesting source = .error errors) (fuel : Nat) :
    ∃ log, enter fuel source i = (match Program.readExpression i.context.nesting source with
      | .ok e => some <$> evaluateGlobal fuel e
      | .error _ => throw (.syntaxErrors errors) : Session (Option Value)) { i with log } := by
  obtain ⟨log, reads⟩ := read_eq source i
  obtain ⟨same, nonempty⟩ := Program.compile_eq_error.mp rejected
  refine ⟨log, ?_⟩
  have here : (get : Session Interpreter) { i with log } = .ok { i with log } { i with log } := rfl
  rw [enter, bind_eq reads, same, if_neg (nonempty ∘ List.isEmpty_iff.mp)]
  exact (bind_eq here).trans rfl

theorem effect_enter_bare {errors : List SyntaxError}
    (rejected : Program.compile i.context.nesting source = .error errors)
    (bare : Program.readExpression i.context.nesting source = .ok e) (fuel : Nat) :
    effect (enter fuel source) i = effect (some <$> evaluateGlobal fuel e) i := by
  obtain ⟨log, enters⟩ := enter_of_rejected rejected fuel
  rw [← effect_value_log fuel e i log]
  unfold effect perform
  rw [enters, bare]

theorem effect_enter_rejected {errors : List SyntaxError} {error : SyntaxError}
    (rejected : Program.compile i.context.nesting source = .error errors)
    (other : Program.readExpression i.context.nesting source = .error error) (fuel : Nat) :
    effect (enter fuel source) i = (.error (.syntaxErrors errors), i.unlogged) := by
  obtain ⟨log, enters⟩ := enter_of_rejected rejected fuel
  unfold effect perform
  rw [enters, other]
  rfl

/-- Wherever there is room for it, an expression at the prompt has the same effect with a semicolon
and without, which is to evaluate it. No text is an expression and a program; one that is neither
has no effect. -/
theorem enter_without_semicolon (source : String) :
    (∀ d e, Program.readExpression d source = .ok e →
      let scan := Scan.ofString source
      let missing : ParseError :=
        ⟨.missingMark .semicolon .afterExpression, scan.eof, scan.tokens.length⟩
      missing.message = "Expect ';' after expression." ∧
        (∀ depth body, Program.compile depth source ≠ .ok body) ∧
        ∀ depth, d + 2 ≤ depth →
          Program.compile depth source = .error [.parse missing] ∧
          Program.compile depth (source ++ "\n;") = .ok [.expression e] ∧
          ∀ fuel i, i.context.nesting = depth →
            effect (enter fuel source) i = effect (some <$> evaluateGlobal fuel e) i ∧
            effect (enter fuel (source ++ "\n;")) i = effect (some <$> evaluateGlobal fuel e) i) ∧
    ∀ i errors error, Program.compile i.context.nesting source = .error errors →
      Program.readExpression i.context.nesting source = .error error →
      ∀ fuel, effect (enter fuel source) i = (.error (.syntaxErrors errors), i.unlogged) := by
  refine ⟨fun d e bare => ⟨rfl, fun depth => Program.compile_ne_ok bare, fun depth room => ?_⟩,
    fun i errors error rejected other => effect_enter_rejected rejected other⟩
  have rejected := Program.compile_unterminated bare room
  have compiled := Program.compile_terminated bare room
  refine ⟨rejected, compiled, ?_⟩
  rintro fuel i rfl
  have bare := Program.readExpression_mono bare (Nat.le_of_add_right_le room)
  exact ⟨effect_enter_bare rejected bare fuel, effect_enter_statement compiled fuel⟩

theorem enter_without_semicolon_name :
    let i := Interpreter.new { Host.doubling 100 with limit := 10 }
    Program.compile 100 "x" = .error [.parse
        ⟨.missingMark .semicolon .afterExpression, ⟨.eof, "", .nil, 1⟩, 1⟩] ∧
      effect (enter 5 "x") i = effect (enter 5 "x\n;") i ∧
      ∃ errors, Program.compile 100 ")" = .error errors ∧
        effect (enter 5 ")") i = (.error (.syntaxErrors errors), i.unlogged) := by
  intro i
  have bare : Program.readExpression 98 "x" = .ok (.variable ⟨.identifier, "x", .nil, 1⟩) := rfl
  obtain ⟨-, -, enough⟩ := (enter_without_semicolon "x").1 98 _ bare
  obtain ⟨rejected, -, same⟩ := enough 100 le_rfl
  obtain ⟨without, terminated⟩ := same 5 i rfl
  exact ⟨rejected, without.trans terminated.symm, _, rfl,
    (enter_without_semicolon ")").2 i _ _ rfl rfl 5⟩

end Session

end Lox
