import Lox.Proofs.Evaluation.Moment
import Lox.Proofs.Session

namespace Lox

/-- The work that a text stands for: its statements, or the expression that it consists of, with or
without a semicolon. -/
inductive Program.Means (depth : Nat) (source : String) : Task → Prop
  | statements {body} (compiled : compile depth source = .ok body) :
      Means depth source (.program body)
  | value {e} (compiled : compile depth source = .ok [.expression e]) :
      Means depth source (.expression e Interpreter.globals)
  | bare {e} (read : readExpression depth source = .ok e) :
      Means depth source (.expression e Interpreter.globals)

def Machine.idle (m : Machine) : Machine := { m with depth := 0 }

namespace Session

variable {α β : Type} {depth : Nat} {source : String} {c : Context} {m : Machine}

/-- The ways to run a text. -/
inductive Runs (source : String) : {α : Type} → Session α → Prop
  | run (fuel : Nat) : Runs source (run fuel source)
  | enter (fuel : Nat) : Runs source (enter fuel source)
  | echo (fuel : Nat) : Runs source (echo fuel source)

inductive Worked (source : String) (c : Context) (m : Machine)
    (r : EStateM.Result Failure Interpreter α) : Prop
  | refused (kept : (final r).machine.store = m.store)
      (other : ∀ e j, r ≠ .error (.runtimeError e) j)
  | done {task} (fuel : Nat) (means : Program.Means c.nesting source task)
      (store : (final r).machine.store = (final (task.run c fuel m.idle)).store)
      (fails : ∀ e j, r = .error (.runtimeError e) j → (⟨task, fuel, m.idle⟩ : Moment).Fails c e)

theorem Worked.of_machine {r : EStateM.Result Failure Interpreter α}
    {q : EStateM.Result Failure Interpreter β} (h : Worked source c m r)
    (store : (final q).machine.store = (final r).machine.store)
    (fails : ∀ e j, q = .error (.runtimeError e) j → ∃ k, r = .error (.runtimeError e) k) :
    Worked source c m q := by
  cases h with
  | refused kept other =>
      refine .refused (store.trans kept) fun e j run => ?_
      obtain ⟨k, run⟩ := fails e j run
      exact other e k run
  | done fuel means ends errors =>
      refine .done fuel means (store.trans ends) fun e j run => ?_
      obtain ⟨k, run⟩ := fails e j run
      exact errors e k run

theorem Worked.bind {work : Session α} {f : α → Session β} {i : Interpreter}
    (h : Worked source c m (work i))
    (next : ∀ a j, ∃ b k, f a j = .ok b k ∧ k.machine.store = j.machine.store) :
    Worked source c m ((work >>= f) i) := by
  cases result : work i with
  | ok a j =>
      obtain ⟨b, k, goesOn, store⟩ := next a j
      rw [bind_eq result, goesOn]
      rw [result] at h
      exact h.of_machine store fun _ _ run => nomatch run
  | error failure j =>
      rw [bind_error.mpr (.inl result)]
      rw [result] at h
      refine Worked.of_machine (q := .error failure j) h rfl ?_
      rintro e _ ⟨⟩
      exact ⟨j, rfl⟩

def Works (depth : Nat) (source : String) (work : Session α) : Prop :=
  ∀ i : Interpreter, i.context.nesting = depth → Worked source i.context i.machine (work i)

theorem works_onMachine {work : Context → Eval α} {task : Task} (fuel : Nat)
    (means : Program.Means depth source task)
    (store : ∀ c m, (final (work c m)).store = (final (task.run c fuel m)).store)
    (fails : ∀ c e m m', work c m = .error (.error e) m' →
      task.run c fuel m = .error (.error e) m') : Works depth source (onMachine work) := by
  rintro i rfl
  unfold onMachine
  by_cases large : Settings.maxFrameBudget < Settings.frameBudget i.context.limit
  · rw [if_pos large]
    exact .refused rfl fun e j run => nomatch run
  · rw [if_neg large]
    have ends := store i.context i.machine.idle
    have errors := fun e => fails i.context e i.machine.idle
    unfold Machine.idle at ends errors
    cases run : work i.context { i.machine with depth := 0 } with
    | ok a m =>
        rw [run] at ends
        exact .done fuel means ends fun e j run => nomatch run
    | error stop m =>
        rw [run] at ends
        cases stop with
        | exhausted | outOfFuel => exact .done fuel means ends fun e j run => nomatch run
        | error error =>
            refine .done fuel means ends fun e j same => ?_
            cases same
            exact ⟨m, errors error m run⟩

theorem works_interpret {body : List Stmt}
    (compiled : Program.compile depth source = .ok body) (fuel : Nat) :
    Works depth source (interpret fuel body) := by
  have work : Works depth source (onMachine fun c => Eval.program c fuel body) :=
    works_onMachine fuel (.statements compiled) (fun _ _ => rfl) fun _ _ _ _ run => run
  intro i room
  rw [interpret_eq]
  exact work { i with log := i.log.push (.interpreting body.length) } room

theorem works_evaluateGlobal {e : Expr}
    (means : Program.Means depth source (.expression e Interpreter.globals)) (fuel : Nat) :
    Works depth source (evaluateGlobal fuel e) := by
  refine works_onMachine fuel means (fun c m => ?_) fun _ _ _ _ run => discard_error.mpr run
  simp only [Task.run, discard, Functor.discard, Functor.mapConst, Function.comp, EStateM.map]
  cases evaluate c fuel e Interpreter.globals m <;> rfl

theorem works_answer {e : Expr}
    (means : Program.Means depth source (.expression e Interpreter.globals)) (fuel : Nat) :
    Works depth source (some <$> evaluateGlobal fuel e) := by
  intro i room
  rw [map_eq_pure_bind]
  exact (works_evaluateGlobal means fuel i room).bind fun _ j => ⟨_, j, rfl, rfl⟩

theorem works_report {work : Session α} {handler : Failure → Session α}
    (h : Works depth source work)
    (fails : ∀ failure j, ∃ k, handler failure j = .error failure k ∧
      k.machine.store = j.machine.store) : Works depth source (tryCatch work handler) := by
  intro i room
  simp only [tryCatch, tryCatchThe, MonadExceptOf.tryCatch, EStateM.tryCatch]
  have inside := h i room
  cases result : work i with
  | ok a j =>
      rw [result] at inside
      exact inside
  | error failure j =>
      obtain ⟨k, failed, store⟩ := fails failure j
      change Worked source _ _ (handler failure j)
      rw [failed]
      rw [result] at inside
      refine Worked.of_machine (q := .error failure k) inside store ?_
      rintro e _ ⟨⟩
      exact ⟨j, rfl⟩

theorem works_run (fuel : Nat) : Works depth source (run fuel source) := by
  apply works_report
  · rintro i rfl
    cases compiled : Program.compile i.context.nesting source with
    | error errors =>
        obtain ⟨log, rejects⟩ := compile_rejects compiled
        rw [bind_error.mpr (.inl rejects)]
        exact .refused rfl fun e j run => nomatch run
    | ok body =>
        obtain ⟨log, compiles⟩ := compile_eq compiled
        rw [bind_eq compiles]
        exact (works_interpret compiled fuel { i with log } rfl).bind fun _ j => ⟨(), _, rfl, rfl⟩
  · intro failure j
    cases failure with
    | syntaxErrors errors =>
        exact ⟨_, bind_error.mpr (.inr ⟨(), _, printLines_eq errors j, rfl⟩), rfl⟩
    | runtimeError | depthTooLarge | exhausted | outOfFuel => exact ⟨_, rfl, rfl⟩

theorem works_enter (fuel : Nat) : Works depth source (enter fuel source) := by
  rintro i rfl
  let depth := i.context.nesting
  obtain ⟨log, reads⟩ := read_eq source i
  unfold enter
  rw [bind_eq reads]
  -- The log plays no part in the rest.
  refine (?_ : Works depth source _) { i with log } rfl
  by_cases accepted : (Program.read depth source).errors.isEmpty
  · have compiled : Program.compile depth source = .ok (Program.read depth source).statements := by
      simp [Program.compile, accepted]
    rw [if_pos accepted]
    split
    · rename_i e same
      exact works_answer (.value (same ▸ compiled)) fuel
    · intro j room
      exact (works_interpret compiled fuel j room).bind fun _ k => ⟨_, k, rfl, rfl⟩
  · rw [if_neg accepted]
    intro j room
    have here : (get : Session Interpreter) j = .ok j j := rfl
    rw [bind_eq here]
    cases bare : Program.readExpression j.context.nesting source with
    | ok e => exact works_answer (.bare bare) fuel j rfl
    | error error => exact .refused rfl (by rintro e k ⟨⟩)

theorem works_echo (fuel : Nat) : Works depth source (echo fuel source) := by
  apply works_report
  · intro i room
    apply (works_enter fuel i room).bind
    intro answer j
    cases answer with
    | none => exact ⟨(), j, rfl, rfl⟩
    | some value => exact ⟨(), _, rfl, rfl⟩
  · intro failure j
    cases failure with
    | syntaxErrors errors =>
        exact ⟨_, bind_error.mpr (.inr ⟨(), _, printLines_eq errors j, rfl⟩), rfl⟩
    | runtimeError | depthTooLarge | exhausted | outOfFuel => exact ⟨_, rfl, rfl⟩

theorem Runs.works {work : Session α} (h : Runs source work) (depth : Nat) :
    Works depth source work := by
  cases h with
  | run fuel => exact works_run fuel
  | enter fuel => exact works_enter fuel
  | echo fuel => exact works_echo fuel

end Session

structure Interpreter.Leads (i j : Interpreter) : Prop where
  context : j.context = i.context
  depth : i.machine.depth = 0 → j.machine.depth = 0
  size : i.machine.store.size ≤ j.machine.store.size

theorem Interpreter.Leads.refl (i : Interpreter) : i.Leads i := ⟨rfl, id, le_rfl⟩

theorem Interpreter.Leads.trans {i j k : Interpreter} (first : i.Leads j) (second : j.Leads k) :
    i.Leads k :=
  ⟨second.context.trans first.context, second.depth ∘ first.depth, first.size.trans second.size⟩

def Session.Restores {α : Type} (work : Session α) : Prop :=
  ∀ i : Interpreter, i.Leads (final (work i))

namespace Session.Restores

variable {α β : Type} {x : Session α}

theorem pure (a : α) : Restores (Pure.pure a) := fun i => .refl i

theorem throw (failure : Failure) : Restores (MonadExcept.throw failure : Session α) :=
  fun i => .refl i

theorem get : Restores (MonadState.get : Session Interpreter) := fun i => .refl i

theorem bind {f : α → Session β} (first : Restores x) (next : ∀ a, Restores (f a)) :
    Restores (x >>= f) := by
  intro i
  have between := first i
  simp only [Bind.bind, EStateM.bind]
  cases run : x i with
  | ok a j =>
      rw [run] at between
      exact between.trans (next a j)
  | error failure j =>
      rw [run] at between
      exact between

theorem map (f : α → β) (h : Restores x) : Restores (f <$> x) := by
  rw [map_eq_pure_bind]
  exact h.bind fun a => pure (f a)

theorem tryCatch {handler : Failure → Session α} (h : Restores x)
    (handles : ∀ failure, Restores (handler failure)) :
    Restores (MonadExcept.tryCatch x handler) := by
  intro i
  have between := h i
  simp only [MonadExcept.tryCatch, tryCatchThe, MonadExceptOf.tryCatch, EStateM.tryCatch]
  cases run : x i with
  | ok a j =>
      rw [run] at between
      exact between
  | error failure j =>
      rw [run] at between
      exact between.trans (handles failure j)

theorem note (event : Event) : Restores (note event) :=
  fun _ => ⟨rfl, id, le_rfl⟩

theorem printLine (line : String) : Restores (printLine line) :=
  fun _ => ⟨rfl, id, le_rfl⟩

theorem forM {items : List α} {f : α → Session PUnit} (each : ∀ a, Restores (f a)) :
    Restores (items.forM f) := by
  induction items with
  | nil => exact pure _
  | cons a items ih => exact (each a).bind fun _ => ih

theorem onMachine {work : Context → Eval α} (lasts : ∀ c, (work c).Lasts) :
    Restores (onMachine work) := by
  intro i
  have later := lasts i.context i.machine.idle
  unfold Session.onMachine
  split
  · exact .refl i
  · unfold Eval.after Machine.idle at later
    cases run : work i.context { i.machine with depth := 0 } with
    | ok a m =>
        rw [run] at later
        exact ⟨rfl, fun _ => later.depth, later.size⟩
    | error stop m =>
        rw [run] at later
        cases stop <;> exact ⟨rfl, fun _ => later.depth, later.size⟩

theorem interpret (fuel : Nat) (body : List Stmt) : Restores (interpret fuel body) :=
  (note _).bind fun _ => onMachine fun c => program_lasts c fuel body

theorem evaluateGlobal (fuel : Nat) (e : Expr) : Restores (evaluateGlobal fuel e) :=
  onMachine fun c => (evaluation_lasts c fuel).1 e _

theorem read (source : String) : Restores (read source) :=
  get.bind fun _ => (note _).bind fun _ => pure _

theorem reports (errors : List SyntaxError) :
    Restores (errors.forM fun e => Session.printLine e.report) := forM fun _ => printLine _

theorem run (fuel : Nat) (source : String) : Restores (run fuel source) := by
  refine tryCatch (bind (bind (read source) fun program => ?_) fun body =>
    (interpret fuel body).bind fun _ => note _) fun failure => ?_
  · split
    · exact pure _
    · exact throw _
  · cases failure with
    | syntaxErrors errors => exact (reports errors).bind fun _ => throw _
    | runtimeError e => exact (printLine _).bind fun _ => (note _).bind fun _ => throw _
    | depthTooLarge | exhausted | outOfFuel => exact throw _

theorem enter (fuel : Nat) (source : String) : Restores (enter fuel source) := by
  refine (read source).bind fun program => ?_
  split
  · split
    · exact (evaluateGlobal fuel _).map _
    · exact (interpret fuel _).bind fun _ => pure _
  · refine get.bind fun i => ?_
    split
    · exact (evaluateGlobal fuel _).map _
    · exact throw _

theorem echo (fuel : Nat) (source : String) : Restores (echo fuel source) := by
  refine tryCatch ((enter fuel source).bind fun answer => ?_) fun failure => ?_
  · cases answer with
    | none => exact pure _
    | some value => exact printLine _
  · cases failure with
    | syntaxErrors errors => exact (reports errors).bind fun _ => throw _
    | runtimeError e => exact (printLine _).bind fun _ => throw _
    | depthTooLarge | exhausted | outOfFuel => exact throw _

end Session.Restores

theorem Session.Runs.restores {α : Type} {source : String} {work : Session α}
    (h : Runs source work) : Restores work := by
  cases h with
  | run fuel => exact .run fuel source
  | enter fuel => exact .enter fuel source
  | echo fuel => exact .echo fuel source

end Lox
