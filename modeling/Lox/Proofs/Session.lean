import Lox.Proofs.Grammar.Tokens
import Lox.Proofs.Parser.Acceptance
import Lox.Proofs.Scan

namespace Lox

open Grammar

/-! ## Texts -/

theorem Program.compile_parts {depth : Nat} {source : String} {body : List Stmt}
    (compiled : compile depth source = .ok body) :
    (read depth source).errors.isEmpty = true ∧ (read depth source).statements = body := by
  have accepted : (read depth source).errors.isEmpty = true := by
    by_contra rejected
    simp [compile, rejected] at compiled
  exact ⟨accepted, by simpa [compile, accepted] using compiled⟩

theorem Program.compile_eq_ok {depth : Nat} {source : String} {body : List Stmt} :
    compile depth source = .ok body ↔ (Scan.ofString source).errors = [] ∧
      Declarations depth false (Scan.ofString source).tokens body := by
  constructor
  · intro compiled
    obtain ⟨accepted, same⟩ := compile_parts compiled
    have clean : (Scan.ofString source).errors = [] ∧ (Parser.parse depth
        (Scan.ofString source).tokens (Scan.ofString source).eof).2 = [] := by
      simpa [read] using accepted
    obtain ⟨other, derived, parsed⟩ := Parser.parse_derived clean.2
    have statements : (read depth source).statements = other := by
      simp [Program.statements, read, parsed]
    rw [← same, statements]
    exact ⟨clean.1, derived⟩
  · rintro ⟨scanned, derived⟩
    have parsed := @Parser.parse_eq _ _ (Scan.ofString source).eof _ derived
    simp [compile, read, statements, scanned, parsed]

theorem Program.readExpression_derived {depth : Nat} {source : String} {e : Expr}
    (read : readExpression depth source = .ok e) :
    (Scan.ofString source).errors = [] ∧
      Phrase depth .assignment (Scan.ofString source).tokens e := by
  unfold readExpression at read
  cases scanned : (Scan.ofString source).errors with
  | cons error errors => simp [scanned] at read
  | nil =>
      simp only [scanned] at read
      cases parsed : Parser.parseExpression depth (Scan.ofString source).tokens
          (Scan.ofString source).eof with
      | error error =>
          rw [parsed] at read
          cases read
      | ok value =>
          rw [parsed] at read
          cases read
          exact ⟨rfl, Parser.parseExpression_derived parsed⟩

theorem Program.compile_eq_error {depth : Nat} {source : String} {errors : List SyntaxError} :
    compile depth source = .error errors ↔ (read depth source).errors = errors ∧ errors ≠ [] := by
  unfold compile
  dsimp only
  split
  · rename_i accepted
    have empty : (read depth source).errors = [] := List.isEmpty_iff.mp accepted
    constructor
    · intro h
      cases h
    · rintro ⟨same, nonempty⟩
      exact absurd (same.symm.trans empty) nonempty
  · rename_i rejected
    have nonempty : (read depth source).errors ≠ [] :=
      fun empty => rejected (List.isEmpty_iff.mpr empty)
    constructor
    · intro h
      cases h
      exact ⟨rfl, nonempty⟩
    · rintro ⟨same, -⟩
      rw [same]

def Stmt.moved (k : Nat) : Stmt → Stmt := mapTokens (Token.moved k)

theorem Token.moved_keeps (k : Nat) : Keeps (Token.moved k) := ⟨fun _ => rfl, fun _ => rfl⟩

theorem Program.compile_append {depth : Nat} {a b : String} {as bs : List Stmt}
    (first : compile depth a = .ok as) (second : compile depth b = .ok bs) :
    compile depth (a ++ "\n" ++ b) = .ok (as ++ bs.map (Stmt.moved (newlines a.toList + 1))) := by
  obtain ⟨scanned, derived⟩ := compile_eq_ok.mp first
  obtain ⟨scanned', derived'⟩ := compile_eq_ok.mp second
  have closed : ∀ e ∈ (Scan.ofChars a.toList).errors, e.cause.isOpen = false := by
    intro e member
    rw [Scan.ofString] at scanned
    simp [scanned] at member
  have text : (a ++ "\n" ++ b).toList = a.toList ++ '\n' :: b.toList := by
    simp
  have scan := Scan.ofChars_append b.toList closed
  rw [← text] at scan
  apply compile_eq_ok.mpr
  unfold Scan.ofString at *
  rw [scan]
  constructor
  · simp [scanned, scanned']
  · exact derived.append (derived'.mapTokens (Token.moved_keeps _))

/-! ## Runs of texts -/

def Machine.prints (m : Machine) (lines : List String) : Machine :=
  { m with output := m.output ++ lines }

namespace Session

/-- How work on an interpreter ended, and the machine after it. -/
def outcome : EStateM.Result Failure Interpreter Unit → Except Failure Unit × Machine
  | .ok () i => (.ok (), i.machine)
  | .error failure i => (.error failure, i.machine)

def reported : EStateM.Result Stop Machine Unit → Except Failure Unit × Machine
  | .ok () m => (.ok (), m)
  | .error (.error e) m => (.error (.runtimeError e), { m with output := m.output.push e.report })
  | .error .exhausted m => (.error .exhausted, m)
  | .error .outOfFuel m => (.error .outOfFuel, m)

def ending (fuel : Nat) (body : List Stmt) (i : Interpreter) : EStateM.Result Stop Machine Unit :=
  Eval.program i.context fuel body { i.machine with depth := 0 }

theorem read_eq (source : String) (i : Interpreter) :
    ∃ log, read source i = .ok (Program.read i.context.nesting source) { i with log } :=
  ⟨_, rfl⟩

theorem compile_eq {source : String} {body : List Stmt} {i : Interpreter}
    (compiled : Program.compile i.context.nesting source = .ok body) :
    ∃ log, compile source i = .ok body { i with log } := by
  obtain ⟨accepted, same⟩ := Program.compile_parts compiled
  obtain ⟨log, reads⟩ := read_eq source i
  refine ⟨log, ?_⟩
  rw [compile, bind_eq reads, if_pos accepted, same]
  rfl

theorem compile_rejects {source : String} {errors : List SyntaxError} {i : Interpreter}
    (rejected : Program.compile i.context.nesting source = .error errors) :
    ∃ log, compile source i = .error (.syntaxErrors errors) { i with log } := by
  obtain ⟨same, nonempty⟩ := Program.compile_eq_error.mp rejected
  obtain ⟨log, reads⟩ := read_eq source i
  refine ⟨log, ?_⟩
  rw [compile, bind_eq reads, same, if_neg (nonempty ∘ List.isEmpty_iff.mp)]
  rfl

theorem printLines_eq (errors : List SyntaxError) (i : Interpreter) :
    (errors.forM fun e => printLine e.report) i =
      .ok () { i with machine := i.machine.prints (errors.map SyntaxError.report) } := by
  induction errors generalizing i with
  | nil => rfl
  | cons e errors ih =>
      have first : printLine e.report i =
          .ok () { i with machine := i.machine.prints [e.report] } := rfl
      change (do
        printLine e.report
        errors.forM fun e => printLine e.report : Session Unit) i = _
      rw [bind_eq first, ih]
      rfl

theorem outcome_run_rejected {source : String} {errors : List SyntaxError} {i : Interpreter}
    (rejected : Program.compile i.context.nesting source = .error errors) (fuel : Nat) :
    outcome (run fuel source i) =
      (.error (.syntaxErrors errors), i.machine.prints (errors.map SyntaxError.report)) := by
  obtain ⟨log, rejects⟩ := compile_rejects rejected
  have handled : run fuel source i = (do
      errors.forM fun e => printLine e.report
      throw (Failure.syntaxErrors errors) : Session Unit) { i with log } := by
    simp only [run, tryCatch, tryCatchThe, MonadExceptOf.tryCatch, EStateM.tryCatch, bind,
      EStateM.bind, rejects]
    rfl
  rw [handled, bind_eq (printLines_eq errors _)]
  rfl

theorem interpret_eq (fuel : Nat) (body : List Stmt) (i : Interpreter) :
    interpret fuel body i =
      onMachine (fun c => Eval.program c fuel body)
        { i with log := i.log.push (.interpreting body.length) } := rfl

theorem run_eq {source : String} {body : List Stmt} {i j : Interpreter}
    (compiled : compile source i = .ok body j) (fuel : Nat) :
    run fuel source i = match interpret fuel body j with
      | .ok () j => .ok () { j with log := j.log.push .completed }
      | .error (.syntaxErrors errors) j => (do
          errors.forM fun e => printLine e.report
          throw (Failure.syntaxErrors errors) : Session Unit) j
      | .error (.runtimeError e) j => .error (.runtimeError e) { j with
          machine := { j.machine with output := j.machine.output.push e.report }
          log := j.log.push (.aborted e.line) }
      | .error .depthTooLarge j => .error .depthTooLarge j
      | .error .exhausted j => .error .exhausted j
      | .error .outOfFuel j => .error .outOfFuel j := by
  simp only [run, tryCatch, tryCatchThe, MonadExceptOf.tryCatch, EStateM.tryCatch, bind,
    EStateM.bind, compiled]
  cases interpret fuel body j with
  | ok u j => rfl
  | error failure j => cases failure <;> rfl

variable {source : String} {body : List Stmt} {i : Interpreter}
  (compiled : Program.compile i.context.nesting source = .ok body) (fuel : Nat)
include compiled

theorem outcome_run :
    outcome (run fuel source i) =
      if Settings.maxFrameBudget < Settings.frameBudget i.context.limit then
        (.error .depthTooLarge, i.machine)
      else reported (ending fuel body i) := by
  obtain ⟨log, compiles⟩ := compile_eq compiled
  rw [run_eq compiles, interpret_eq]
  unfold onMachine ending
  by_cases large : Settings.maxFrameBudget < Settings.frameBudget i.context.limit
  · rw [if_pos large, if_pos large]
    rfl
  · rw [if_neg large, if_neg large]
    dsimp only
    cases Eval.program i.context fuel body { i.machine with depth := 0 } with
    | ok u m => rfl
    | error stop m => cases stop <;> rfl

theorem run_ok {j : Interpreter} (runs : run fuel source i = .ok () j) :
    ¬ Settings.maxFrameBudget < Settings.frameBudget i.context.limit ∧ j.context = i.context ∧
      j.machine.depth = 0 ∧ ending fuel body i = .ok () j.machine := by
  obtain ⟨log, compiles⟩ := compile_eq compiled
  rw [run_eq compiles, interpret_eq] at runs
  unfold onMachine at runs
  have lasts := program_lasts i.context fuel body { i.machine with depth := 0 }
  unfold Eval.after at lasts
  unfold ending
  by_cases large : Settings.maxFrameBudget < Settings.frameBudget i.context.limit
  · rw [if_pos large] at runs
    cases runs
  · rw [if_neg large] at runs
    dsimp only at runs
    cases ends : Eval.program i.context fuel body { i.machine with depth := 0 } with
    | ok u m =>
        rw [ends] at runs lasts
        cases runs
        exact ⟨large, rfl, lasts.depth, rfl⟩
    | error stop m =>
        rw [ends] at runs
        cases stop <;> cases runs

end Session

/-! ## Two texts -/

/-- The token with its line `K + 1 + n`, if it is one beyond line `K`, made line `k + n`. -/
def Token.placed (K k : Nat) (t : Token) : Token :=
  if K < t.line then { t with line := t.line - (K + 1) + k } else t

theorem Token.placed_kind (K k : Nat) (t : Token) : (t.placed K k).kind = t.kind := by
  unfold placed
  split <;> rfl

theorem Token.placed_lexeme (K k : Nat) (t : Token) : (t.placed K k).lexeme = t.lexeme := by
  unfold placed
  split <;> rfl

theorem Token.placed_moved (K k : Nat) : Token.placed K k ∘ Token.moved (K + 1) = Token.moved k := by
  funext t
  have beyond : K < t.line + (K + 1) := by omega
  show (if K < t.line + (K + 1) then _ else _) = _
  rw [if_pos beyond]
  simp [moved]

theorem Token.placed_of_le {K : Nat} {t : Token} (before : t.line ≤ K) (k : Nat) :
    t.placed K k = t :=
  if_neg (Nat.not_lt.mpr before)

theorem exists_last_line (least : Nat) (ts : List Token) : ∃ K, least ≤ K ∧ ∀ t ∈ ts, t.line ≤ K := by
  induction ts with
  | nil => exact ⟨least, le_rfl, List.forall_mem_nil _⟩
  | cons t ts ih =>
      obtain ⟨K, more, bound⟩ := ih
      refine ⟨max t.line K, more.trans (Nat.le_max_right _ _), List.forall_mem_cons.mpr
        ⟨Nat.le_max_left _ _, fun u later => (bound u later).trans (Nat.le_max_right _ _)⟩⟩

theorem Eval.program_moved {c : Context} {L K : Nat} (blind : c.Blind (·.line ≤ L) fun _ => True)
    (own : L ≤ K) {m : Machine} (apart : ∀ t ∈ m.store.tokens, t.line ≤ K) (fuel : Nat)
    (statements : List Stmt) (k : Nat) :
    Eval.program c fuel (statements.map (Stmt.moved k)) m =
      Eval.mapTokens (Token.placed K k)
        (Eval.program c fuel (statements.map (Stmt.moved (K + 1))) m) := by
  have kept : m.mapTokens (Token.placed K k) = m := by
    have store : m.store.mapTokens (Token.placed K k) = m.store :=
      Store.mapTokens_eq_self fun t member => Token.placed_of_le (apart t member) k
    unfold Machine.mapTokens
    rw [store]
  have placed : (statements.map (Stmt.moved (K + 1))).map (Stmt.mapTokens (Token.placed K k)) =
      statements.map (Stmt.moved k) := by
    rw [List.map_map]
    apply List.map_congr_left
    intro s _
    show (s.mapTokens (Token.moved (K + 1))).mapTokens (Token.placed K k) = _
    rw [Stmt.mapTokens_mapTokens, Token.placed_moved]
    rfl
  rw [← Eval.program_mapTokens (Token.placed_kind K k) (Token.placed_lexeme K k) blind
    fun t line => Token.placed_of_le (line.trans own) k, placed, kept]

theorem Stmt.map_moved_zero (statements : List Stmt) :
    statements.map (Stmt.moved 0) = statements := by
  have same : ∀ s ∈ statements, Stmt.moved 0 s = id s := by
    intro s _
    apply Stmt.mapTokens_eq_self
    intro t _
    rfl
  rw [List.map_congr_left same, List.map_id]

/-- Running a text and then a second one is running one text, but for the lines of the second one:
both ways it ends as it does beyond all lines of the interpreter, where each line can be told to be
its own. If the first text does not run to its end, nothing of the second one is run. -/
theorem Session.outcome_run_append {depth : Nat} {a b : String} {as bs : List Stmt}
    (first : Program.compile depth a = .ok as) (second : Program.compile depth b = .ok bs) :
    let k := newlines a.toList + 1
    Program.compile depth (a ++ "\n" ++ b) = .ok (as ++ bs.map (Stmt.moved k)) ∧
      ∀ fuel i, i.context.nesting = depth →
        (∀ L, i.context.Blind (·.line ≤ L) (fun _ => True) → ∀ j, run fuel a i = .ok () j →
          ∃ K, L ≤ K ∧ (∀ t ∈ j.machine.store.tokens, t.line ≤ K) ∧
            let apart := ending fuel (bs.map (Stmt.moved (K + 1))) j
            outcome (run fuel b j) = reported (Eval.mapTokens (Token.placed K 0) apart) ∧
            outcome (run fuel (a ++ "\n" ++ b) i) =
              reported (Eval.mapTokens (Token.placed K k) apart)) ∧
        ∀ failure j, run fuel a i = .error failure j →
          outcome (run fuel (a ++ "\n" ++ b) i) = (.error failure, j.machine) := by
  intro k
  have both : Program.compile depth (a ++ "\n" ++ b) = .ok (as ++ bs.map (Stmt.moved k)) :=
    Program.compile_append first second
  refine ⟨both, ?_⟩
  rintro fuel i rfl
  refine ⟨fun L blind j runs => ?_, fun failure j runs => ?_⟩
  · obtain ⟨room, context, depth, ends⟩ := run_ok first fuel runs
    obtain ⟨K, own, lines⟩ := exists_last_line L j.machine.store.tokens
    -- No call is active after a run, so the second text starts on the machine as the first one left it.
    have idle : { j.machine with depth := 0 } = j.machine := by
      rw [← depth]
    rw [← context] at blind
    refine ⟨K, own, lines, ?_, ?_⟩
    · rw [outcome_run (context ▸ second), context, if_neg room]
      unfold ending
      rw [idle, ← Eval.program_moved blind own lines, Stmt.map_moved_zero]
    · rw [outcome_run both, if_neg room]
      unfold ending at ends ⊢
      rw [Eval.program_append, bind_eq ends, idle, ← Eval.program_moved blind own lines, context]
  · have fails : outcome (run fuel a i) = (.error failure, j.machine) := by
      rw [runs]
      rfl
    -- Stack frames are set aside before any statement is run, for both texts or for neither.
    rw [outcome_run first] at fails
    rw [outcome_run both]
    by_cases large : Settings.maxFrameBudget < Settings.frameBudget i.context.limit
    · rw [if_pos large] at fails ⊢
      exact fails
    · rw [if_neg large] at fails ⊢
      unfold ending at fails ⊢
      rw [Eval.program_append]
      cases ends : Eval.program i.context fuel as { i.machine with depth := 0 } with
      | ok u m =>
          rw [ends] at fails
          simp [reported] at fails
      | error stop m =>
          rw [ends] at fails
          rw [bind_error.mpr (.inl ends)]
          exact fails

theorem Session.outcome_run_append_undefined :
    let i := Interpreter.new { Host.doubling 100 with limit := 10 }
    let a := "fun f(x) \x7b\n return twice(x); \x7d"
    let b := "print f(\"a\"); y;"
    let after := run 20 b (final (run 20 a i))
    let single := run 20 (a ++ "\n" ++ b) i
    let reversed := run 20 (b ++ "\n" ++ a) i
    (∃ K apart, outcome after = reported (Eval.mapTokens (Token.placed K 0) apart) ∧
        outcome single = reported (Eval.mapTokens (Token.placed K 2) apart)) ∧
      (final after).printed = ["aa", "Undefined variable 'y'.\n[line 1]"] ∧
      (final single).printed = ["aa", "Undefined variable 'y'.\n[line 3]"] ∧
      (outcome reversed).2 = (final (run 20 b i)).machine ∧
      (final reversed).printed = ["Undefined variable 'f'.\n[line 1]"] := by
  intro i a b after single reversed
  obtain ⟨as, first⟩ : ∃ as, Program.compile 100 "fun f(x) \x7b\n return twice(x); \x7d" = .ok as :=
    ⟨_, rfl⟩
  obtain ⟨bs, second⟩ : ∃ bs, Program.compile 100 "print f(\"a\"); y;" = .ok bs := ⟨_, rfl⟩
  have blind : i.context.Blind (·.line ≤ 0) fun _ => True :=
    Host.doubling_blind 100 (Nat.le_refl 0) _
  have succeeds : (outcome (run 20 a i)).1.isOk = true := by decide +kernel
  have fails : (outcome (run 20 b i)).1.isOk = false := by decide +kernel
  refine ⟨?_, by decide +kernel, by decide +kernel, ?_, by decide +kernel⟩
  · have appended := ((outcome_run_append first second).2 20 i rfl).1 0 blind
    cases runs : run 20 a i with
    | ok u j =>
        obtain ⟨K, -, -, ends⟩ := appended j runs
        refine ⟨K, _, ?_, ends.2⟩
        rw [← ends.1]
        simp only [after, runs]
        rfl
    | error failure j =>
        rw [runs] at succeeds
        cases succeeds
  · have dropped := ((outcome_run_append second first).2 20 i rfl).2
    cases runs : run 20 b i with
    | ok u j =>
        rw [runs] at fails
        cases fails
    | error failure j => exact congrArg Prod.snd (dropped failure j runs)

end Lox
