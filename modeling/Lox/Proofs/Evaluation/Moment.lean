import Lox.Proofs.Evaluation.Later

/-!
The moments of a run: which work a piece of work starts on its way, and from which machine.

A piece of work that fails fails because of something that it starts, so an error can be followed
to the moment at which it arises.
-/

namespace Lox

def Eval.enter (f : Function) (arguments : List Value) : Eval Nat := do
  let scope ← openScope f.closure
  (f.params.zip arguments).forM fun (param, argument) => define scope param.lexeme argument
  return scope

inductive Task where
  | program (statements : List Stmt)
  | body (statements : List Stmt) (scope : Nat)
  | statement (s : Stmt) (scope : Nat)
  | expression (e : Expr) (scope : Nat)
  | call (callee : Value) (paren : Token) (arguments : List Value)

structure Moment where
  task : Task
  fuel : Nat
  machine : Machine

def Task.run (context : Context) (fuel : Nat) : Task → Eval Unit
  | .program statements => Eval.program context fuel statements
  | .body statements scope => discard (Eval.body context fuel statements scope)
  | .statement s scope => discard (execute context fuel s scope)
  | .expression e scope => discard (evaluate context fuel e scope)
  | .call callee paren arguments =>
      discard (Eval.call context (Eval.body context fuel) callee paren arguments)

def Moment.run (context : Context) (a : Moment) : EStateM.Result Stop Machine Unit :=
  a.task.run context a.fuel a.machine

def Expr.operands : Expr → List Expr
  | .literal _ | .variable _ => []
  | .grouping inner => [inner]
  | .unary _ operand => [operand]
  | .binary left _ right => [left, right]
  | .logical left _ _ => [left]
  | .assign _ value => [value]
  | .call callee _ arguments => callee :: arguments

def Stmt.operand? : Stmt → Option Expr
  | .expression value | .print value => some value
  | .varDecl _ initializer => initializer
  | .ifElse condition _ _ => some condition
  | .whileLoop condition _ => some condition
  | .returnStmt _ value => value
  | .block _ | .funDecl _ _ _ => none

/-- What is started while work is being done, by the work itself and not by something that it
started, and how many calls are entered by that. -/
inductive Starts (c : Context) : Moment → Moment → (entered : Nat) → Prop
  | top {fuel before s after m m'} (done : Eval.program c fuel before m = .ok () m') :
      Starts c ⟨.program (before ++ s :: after), fuel, m⟩
        ⟨.statement s Interpreter.globals, fuel, m'⟩ 0
  | item {fuel before s after scope m m'} (done : Eval.body c fuel before scope m = .ok .normal m') :
      Starts c ⟨.body (before ++ s :: after) scope, fuel, m⟩ ⟨.statement s scope, fuel, m'⟩ 0
  | value {fuel s e scope m} (first : s.operand? = some e) :
      Starts c ⟨.statement s scope, fuel + 1, m⟩ ⟨.expression e scope, fuel, m⟩ 0
  | block {fuel body scope m} :
      Starts c ⟨.statement (.block body) scope, fuel + 1, m⟩
        ⟨.body body m.store.size, fuel, { m with store := m.store.push (some scope) }⟩ 0
  | whenTrue {fuel e s o scope m v m'} (tested : evaluate c fuel e scope m = .ok v m')
      (truthy : v.truthy = true) :
      Starts c ⟨.statement (.ifElse e s o) scope, fuel + 1, m⟩ ⟨.statement s scope, fuel, m'⟩ 0
  | whenFalse {fuel e s t scope m v m'} (tested : evaluate c fuel e scope m = .ok v m')
      (falsy : v.truthy = false) :
      Starts c ⟨.statement (.ifElse e s (some t)) scope, fuel + 1, m⟩
        ⟨.statement t scope, fuel, m'⟩ 0
  | round {fuel e s scope m v m'} (tested : evaluate c fuel e scope m = .ok v m')
      (truthy : v.truthy = true) :
      Starts c ⟨.statement (.whileLoop e s) scope, fuel + 1, m⟩ ⟨.statement s scope, fuel, m'⟩ 0
  | again {fuel e s scope m v m' m''} (tested : evaluate c fuel e scope m = .ok v m')
      (truthy : v.truthy = true) (done : execute c fuel s scope m' = .ok .normal m'') :
      Starts c ⟨.statement (.whileLoop e s) scope, fuel + 1, m⟩
        ⟨.statement (.whileLoop e s) scope, fuel, m''⟩ 0
  | operand {fuel e before x after scope m vs m'} (operands : e.operands = before ++ x :: after)
      (done : before.mapM (fun e => evaluate c fuel e scope) m = .ok vs m') :
      Starts c ⟨.expression e scope, fuel + 1, m⟩ ⟨.expression x scope, fuel, m'⟩ 0
  | right {fuel a op b scope m v m'} (done : evaluate c fuel a scope m = .ok v m')
      (undecided : Value.decides op v = false) :
      Starts c ⟨.expression (.logical a op b) scope, fuel + 1, m⟩ ⟨.expression b scope, fuel, m'⟩ 0
  | attempt {fuel e paren es scope m f vs m'}
      (done : (e :: es).mapM (fun e => evaluate c fuel e scope) m = .ok (f :: vs) m') :
      Starts c ⟨.expression (.call e paren es) scope, fuel + 1, m⟩ ⟨.call f paren vs, fuel, m'⟩ 0
  | enter {fuel f paren vs m scope m'} (count : vs.length = f.params.length)
      (room : m.depth < c.limit)
      (entered : Eval.enter f vs { m with depth := m.depth + 1 } = .ok scope m') :
      Starts c ⟨.call (.function f) paren vs, fuel, m⟩ ⟨.body f.body scope, fuel, m'⟩ 1

/-- What happens in the course of work, and how many of the calls entered since are active. -/
inductive Reaches (c : Context) : Moment → Moment → (active : Nat) → Prop
  | here {a} : Reaches c a a 0
  | step {a b d n k} (first : Starts c a b n) (rest : Reaches c b d k) : Reaches c a d (n + k)

/-! ## Errors are passed on -/

theorem Eval.applyFunction_eq (run : List Stmt → Nat → Eval Completion) (f : Function)
    (arguments : List Value) :
    applyFunction run f arguments = do
      let scope ← enter f arguments
      match ← run f.body scope with
      | .normal => return .nil
      | .returning value => return value := by
  unfold applyFunction enter
  rw [bind_assoc]
  congr 1
  funext scope
  rw [bind_assoc]
  rfl

theorem execute_ifElse (c : Context) (fuel : Nat) (e : Expr) (s : Stmt) (o : Option Stmt)
    (scope : Nat) :
    execute c (fuel + 1) (.ifElse e s o) scope = (do
      if (← evaluate c fuel e scope).truthy then execute c fuel s scope
      else
        match o with
        | some t => execute c fuel t scope
        | none => return .normal) := rfl

variable {c : Context} {a b d : Moment} {n k : Nat} {stop : Stop} {m m' : Machine}

theorem mapM_cons_ok {f : Expr → Eval Value} {e : Expr} {es : List Expr} {vs : List Value}
    (done : (e :: es).mapM f m = .ok vs m') :
    ∃ v us m₁, f e m = .ok v m₁ ∧ es.mapM f m₁ = .ok us m' ∧ vs = v :: us := by
  rw [List.mapM_cons] at done
  obtain ⟨v, m₁, first, done⟩ := bind_ok.mp done
  obtain ⟨us, m₂, others, done⟩ := bind_ok.mp done
  obtain ⟨rfl, rfl⟩ := pure_ok.mp done
  exact ⟨v, us, m₁, first, others, rfl⟩

theorem mapM_cons_error {f : Expr → Eval Value} {e : Expr} {es : List Expr} :
    (e :: es).mapM f m = .error stop m' ↔
      f e m = .error stop m' ∨ ∃ v m₁, f e m = .ok v m₁ ∧ es.mapM f m₁ = .error stop m' := by
  rw [List.mapM_cons, bind_error]
  refine or_congr_right (exists_congr fun v => exists_congr fun m₁ => and_congr_right fun _ => ?_)
  rw [bind_error]
  refine ⟨?_, .inl⟩
  rintro (others | ⟨us, m₂, -, ends⟩)
  · exact others
  · cases ends

theorem mapM_error {f : Expr → Eval Value} {x : Expr} (before after : List Expr) {vs : List Value}
    {m₁ : Machine} (done : before.mapM f m = .ok vs m₁) (fails : f x m₁ = .error stop m') :
    (before ++ x :: after).mapM f m = .error stop m' := by
  induction before generalizing m vs with
  | nil =>
      obtain ⟨rfl, rfl⟩ := pure_ok.mp done
      exact mapM_cons_error.mpr (.inl fails)
  | cons e before ih =>
      obtain ⟨v, us, m₂, first, others, -⟩ := mapM_cons_ok done
      exact mapM_cons_error.mpr (.inr ⟨v, m₂, first, ih others⟩)

theorem evaluate_of_operands {fuel : Nat} {e : Expr} {scope : Nat}
    (fails : e.operands.mapM (fun e => evaluate c fuel e scope) m = .error stop m') :
    evaluate c (fuel + 1) e scope m = .error stop m' := by
  have one : ∀ x : Expr, [x].mapM (fun e => evaluate c fuel e scope) m = .error stop m' →
      evaluate c fuel x scope m = .error stop m' := fun x fails => by
    rcases mapM_cons_error.mp fails with fails | ⟨v, m₁, -, ends⟩
    · exact fails
    · cases ends
  cases e with
  | literal | «variable» => cases fails
  | grouping inner => exact one inner fails
  | unary operator operand => exact bind_error.mpr (.inl (one operand fails))
  | logical left operator right => exact bind_error.mpr (.inl (one left fails))
  | assign name value => exact bind_error.mpr (.inl (one value fails))
  | binary left operator right =>
      rcases mapM_cons_error.mp fails with fails | ⟨v, m₁, done, fails⟩
      · exact bind_error.mpr (.inl fails)
      · rcases mapM_cons_error.mp fails with fails | ⟨u, m₂, -, ends⟩
        · exact bind_error.mpr (.inr ⟨v, m₁, done, bind_error.mpr (.inl fails)⟩)
        · cases ends
  | call callee paren arguments =>
      rcases mapM_cons_error.mp fails with fails | ⟨v, m₁, done, fails⟩
      · exact bind_error.mpr (.inl fails)
      · exact bind_error.mpr (.inr ⟨v, m₁, done, bind_error.mpr (.inl fails)⟩)

theorem Starts.fails (start : Starts c a b n) (fails : b.run c = .error stop m) :
    ∃ m', a.run c = .error stop m' := by
  cases start with
  | top done =>
      refine ⟨m, ?_⟩
      change Eval.program c _ (_ ++ _) _ = _
      rw [Eval.program_append, bind_eq done]
      exact bind_error.mpr (.inl fails)
  | item done =>
      refine ⟨m, discard_error.mpr ?_⟩
      rw [Eval.body_append, bind_eq done]
      exact bind_error.mpr (.inl (discard_error.mp fails))
  | @value fuel s e scope _ first =>
      have fails := discard_error.mp fails
      refine ⟨m, discard_error.mpr ?_⟩
      cases s with
      | expression value =>
          cases first
          exact bind_error.mpr (.inl (discard_error.mpr fails))
      | print value =>
          cases first
          exact bind_error.mpr (.inl fails)
      | varDecl name initializer =>
          cases first
          exact bind_error.mpr (.inl fails)
      | ifElse condition whenTrue whenFalse =>
          cases first
          exact bind_error.mpr (.inl fails)
      | whileLoop condition body =>
          cases first
          exact bind_error.mpr (.inl fails)
      | returnStmt keyword value =>
          cases first
          exact bind_error.mpr (.inl fails)
      | block | funDecl => cases first
  | block => exact ⟨m, discard_error.mpr (discard_error.mp fails)⟩
  | whenTrue tested truthy =>
      refine ⟨m, discard_error.mpr ?_⟩
      dsimp only
      rw [execute_ifElse, bind_eq tested, if_pos truthy]
      exact discard_error.mp fails
  | whenFalse tested falsy =>
      refine ⟨m, discard_error.mpr ?_⟩
      dsimp only
      rw [execute_ifElse, bind_eq tested, if_neg (by simp [falsy])]
      exact discard_error.mp fails
  | round tested truthy =>
      refine ⟨m, discard_error.mpr ?_⟩
      dsimp only
      rw [execute, bind_eq tested, if_pos truthy]
      exact bind_error.mpr (.inl (discard_error.mp fails))
  | again tested truthy done =>
      refine ⟨m, discard_error.mpr ?_⟩
      dsimp only
      rw [execute, bind_eq tested, if_pos truthy, bind_eq done]
      exact discard_error.mp fails
  | @operand fuel e before x after scope _ vs _ operands done =>
      have fails := discard_error.mp fails
      refine ⟨m, discard_error.mpr ?_⟩
      dsimp only at fails ⊢
      refine evaluate_of_operands ?_
      rw [operands]
      exact mapM_error before after done fails
  | right done undecided =>
      refine ⟨m, discard_error.mpr ?_⟩
      dsimp only
      rw [evaluate, bind_eq done, if_neg (by simp [undecided])]
      exact discard_error.mp fails
  | attempt done =>
      refine ⟨m, discard_error.mpr ?_⟩
      obtain ⟨f, vs, m₁, callee, arguments, same⟩ := mapM_cons_ok done
      cases same
      dsimp only
      rw [evaluate, bind_eq callee, bind_eq arguments]
      exact discard_error.mp fails
  | @enter fuel f paren vs _ scope _ count room entered =>
      have fails := discard_error.mp fails
      refine ⟨{ m with depth := m.depth - 1 }, discard_error.mpr ?_⟩
      dsimp only at fails ⊢
      have full : ¬ c.limit ≤ _ := Int.not_le.mpr room
      rw [Eval.call_eq]
      simp only [Value.arity?, count, ne_eq, not_true_eq_false, if_false, full, Eval.invoke]
      simp only [Eval.active, Eval.guarded_eq, Eval.applyFunction_eq, bind_eq entered,
        bind_error.mpr (.inl fails)]
      -- A body does not end by exhausting the stack, so the call passes its end on.
      cases stop with
      | error | outOfFuel => rfl
      | exhausted => exact absurd fails (body_contained c fuel f.body scope _ _)

/-! ## Errors are followed back -/

theorem program_error {fuel : Nat} {statements : List Stmt}
    (fails : Eval.program c fuel statements m = .error stop m') :
    ∃ before s after m₁, statements = before ++ s :: after ∧
      Eval.program c fuel before m = .ok () m₁ ∧
      execute c fuel s Interpreter.globals m₁ = .error stop m' := by
  induction statements generalizing m with
  | nil => cases fails
  | cons s rest ih =>
      rcases bind_error.mp fails with fails | ⟨u, m₁, done, fails⟩
      · exact ⟨[], s, rest, m, rfl, rfl, discard_error.mp fails⟩
      · obtain ⟨before, s', after, m₂, rfl, first, fails⟩ := ih fails
        refine ⟨s :: before, s', after, m₂, rfl, ?_, fails⟩
        exact bind_ok.mpr ⟨u, m₁, done, first⟩

theorem body_error {fuel scope : Nat} {statements : List Stmt}
    (fails : Eval.body c fuel statements scope m = .error stop m') :
    ∃ before s after m₁, statements = before ++ s :: after ∧
      Eval.body c fuel before scope m = .ok .normal m₁ ∧
      execute c fuel s scope m₁ = .error stop m' := by
  induction statements generalizing m with
  | nil => cases fails
  | cons s rest ih =>
      rcases bind_error.mp fails with fails | ⟨completion, m₁, done, fails⟩
      · exact ⟨[], s, rest, m, rfl, rfl, fails⟩
      · cases completion with
        | normal =>
            obtain ⟨before, s', after, m₂, rfl, first, fails⟩ := ih fails
            refine ⟨s :: before, s', after, m₂, rfl, ?_, fails⟩
            exact bind_ok.mpr ⟨.normal, m₁, done, first⟩
        | returning value => cases fails

theorem operands_error {fuel scope : Nat} {es : List Expr}
    (fails : es.mapM (fun e => evaluate c fuel e scope) m = .error stop m') :
    ∃ before x after vs m₁, es = before ++ x :: after ∧
      before.mapM (fun e => evaluate c fuel e scope) m = .ok vs m₁ ∧
      evaluate c fuel x scope m₁ = .error stop m' := by
  induction es generalizing m with
  | nil => cases fails
  | cons e rest ih =>
      rcases mapM_cons_error.mp fails with fails | ⟨v, m₁, done, fails⟩
      · exact ⟨[], e, rest, [], m, rfl, rfl, fails⟩
      · obtain ⟨before, x, after, vs, m₂, rfl, first, fails⟩ := ih fails
        refine ⟨e :: before, x, after, v :: vs, m₂, rfl, ?_, fails⟩
        rw [List.mapM_cons, bind_eq done, bind_eq first]
        rfl

namespace Value

variable {op : Token} {u v : Value} {e : RuntimeError}

theorem applyUnary_error (fails : applyUnary op v = .error e) :
    e = ⟨.operandNotNumber, op⟩ ∨ e = ⟨.unsupportedUnary, op⟩ := by
  unfold applyUnary at fails
  split at fails <;> cases fails
  · exact .inl rfl
  · exact .inr rfl

theorem compare_error {test : Float → Float → Bool} (fails : compare op test u v = .error e) :
    e = ⟨.operandsNotNumbers, op⟩ := by
  unfold compare at fails
  split at fails <;> cases fails
  rfl

theorem calculate_error {operation : Float → Float → Float}
    (fails : calculate op operation u v = .error e) : e = ⟨.operandsNotNumbers, op⟩ := by
  unfold calculate at fails
  split at fails <;> cases fails
  rfl

theorem add_error (fails : add op u v = .error e) : e = ⟨.operandsNotAddable, op⟩ := by
  unfold add at fails
  split at fails <;> cases fails
  rfl

theorem applyBinary_error (fails : applyBinary op u v = .error e) :
    e = ⟨.operandsNotNumbers, op⟩ ∨ e = ⟨.operandsNotAddable, op⟩ ∨ e = ⟨.unsupportedBinary, op⟩ := by
  unfold applyBinary at fails
  split at fails
  case h_1 | h_2 => cases fails
  case h_3 => exact .inr (.inl (add_error fails))
  case h_4 | h_5 | h_6 => exact .inl (calculate_error fails)
  case h_7 | h_8 | h_9 | h_10 => exact .inl (compare_error fails)
  case h_11 =>
    cases fails
    exact .inr (.inr rfl)

end Value

def Moment.Fails (c : Context) (a : Moment) (e : RuntimeError) : Prop :=
  ∃ m, a.run c = .error (.error e) m

/-- Work ends in an error that arises in it, and not in something that it starts. -/
inductive Moment.Raises (c : Context) : Moment → RuntimeError → Prop
  | name {fuel scope t m} (unbound : m.store.resolve? scope t.lexeme = none) :
      Raises c ⟨.expression (.variable t) scope, fuel + 1, m⟩ ⟨.undefinedVariable, t⟩
  | assign {fuel scope t e m v m'} (value : evaluate c fuel e scope m = .ok v m')
      (unbound : m'.store.resolve? scope t.lexeme = none) :
      Raises c ⟨.expression (.assign t e) scope, fuel + 1, m⟩ ⟨.undefinedVariable, t⟩
  | unary {fuel scope op e m v m' error} (operand : evaluate c fuel e scope m = .ok v m')
      (fails : Value.applyUnary op v = .error error) :
      Raises c ⟨.expression (.unary op e) scope, fuel + 1, m⟩ error
  | binary {fuel scope a op b m u m₁ v m' error} (left : evaluate c fuel a scope m = .ok u m₁)
      (right : evaluate c fuel b scope m₁ = .ok v m')
      (fails : Value.applyBinary op u v = .error error) :
      Raises c ⟨.expression (.binary a op b) scope, fuel + 1, m⟩ error
  | notCallable {fuel callee paren arguments m} (arity : callee.arity? = none) :
      Raises c ⟨.call callee paren arguments, fuel, m⟩ ⟨.notCallable, paren⟩
  | arity {fuel callee paren n m} {arguments : List Value} (arity : callee.arity? = some n)
      (other : arguments.length ≠ n) :
      Raises c ⟨.call callee paren arguments, fuel, m⟩ ⟨.arity n arguments.length, paren⟩
  | full {fuel callee paren m} {arguments : List Value}
      (arity : callee.arity? = some arguments.length) (full : c.limit ≤ m.depth) :
      Raises c ⟨.call callee paren arguments, fuel, m⟩ ⟨.stackOverflow, paren⟩
  | raised {fuel f paren m error} {arguments : List Value} (arity : f.arity = arguments.length)
      (room : m.depth < c.limit) (answer : (c.act f m.calls arguments).answer = .raises error) :
      Raises c ⟨.call (.native f) paren arguments, fuel, m⟩ error
  | exhausts {fuel f paren m} {arguments : List Value} (arity : f.arity = arguments.length)
      (room : m.depth < c.limit) (answer : (c.act f m.calls arguments).answer = .exhausts) :
      Raises c ⟨.call (.native f) paren arguments, fuel, m⟩ ⟨.stackOverflow, paren⟩
  | alien {fuel f paren m typeName} {arguments : List Value} (arity : f.arity = arguments.length)
      (room : m.depth < c.limit)
      (answer : (c.act f m.calls arguments).answer = .returns (.alien typeName)) :
      Raises c ⟨.call (.native f) paren arguments, fuel, m⟩ ⟨.alienResult typeName, paren⟩

section
variable {fuel scope : Nat} {error : RuntimeError}

theorem ofExcept_error {r : Except RuntimeError Value} :
    Eval.ofExcept r m = .error (.error error) m' ↔ r = .error error ∧ m = m' := by
  cases r with
  | ok v => exact ⟨nofun, fun h => nomatch h.1⟩
  | error e =>
      constructor
      · intro h
        cases h
        exact ⟨rfl, rfl⟩
      · rintro ⟨h, rfl⟩
        cases h
        rfl

def Eval.answered (paren : Token) (m : Machine) :
    Native.Answer → EStateM.Result Stop Machine Value
  | .returns (.value value) => .ok value m
  | .returns (.alien typeName) => .error (.error ⟨.alienResult typeName, paren⟩) m
  | .raises error => .error (.error error) m
  | .exhausts => .error (.error ⟨.stackOverflow, paren⟩) m

theorem call_native {f : Native} (fuel : Nat) (paren : Token) {arguments : List Value}
    (arity : f.arity = arguments.length) (room : m.depth < c.limit) :
    Eval.call c (Eval.body c fuel) (.native f) paren arguments m =
      Eval.answered paren (m.consulted (c.act f m.calls arguments).printed)
        (c.act f m.calls arguments).answer := by
  have space : ¬ c.limit ≤ m.depth := Int.not_le.mpr room
  rw [Eval.call_eq]
  simp only [Value.arity?, arity, ne_eq, not_true_eq_false, if_false, space, Eval.invoke, bind,
    EStateM.bind, Eval.active, Eval.guarded_eq, Eval.applyNative_eq]
  cases (c.act f m.calls arguments).answer with
  | raises error | exhausts => rfl
  | returns result => cases result <;> rfl

theorem Moment.Raises.fails (h : a.Raises c error) : a.Fails c error := by
  cases h with
  | @name fuel scope t m unbound =>
      refine ⟨m, discard_error.mpr ?_⟩
      dsimp only
      rw [evaluate, Eval.lookup_eq, unbound]
  | @assign fuel scope t e m v m' value unbound =>
      refine ⟨m', discard_error.mpr ?_⟩
      dsimp only
      rw [evaluate, bind_eq value]
      refine bind_error.mpr (.inl ?_)
      rw [Eval.assign_eq, unbound]
  | @unary fuel scope op e m v m' _ operand fails =>
      refine ⟨m', discard_error.mpr ?_⟩
      exact bind_error.mpr (.inr ⟨_, _, operand, ofExcept_error.mpr ⟨fails, rfl⟩⟩)
  | @binary fuel scope a op b m u m₁ v m' _ left right fails =>
      refine ⟨m', discard_error.mpr ?_⟩
      refine bind_error.mpr (.inr ⟨_, _, left, ?_⟩)
      exact bind_error.mpr (.inr ⟨_, _, right, ofExcept_error.mpr ⟨fails, rfl⟩⟩)
  | @notCallable fuel callee paren arguments m arity =>
      refine ⟨m, discard_error.mpr ?_⟩
      rw [Eval.call_eq, arity]
  | @arity fuel callee paren n m arguments arity other =>
      refine ⟨m, discard_error.mpr ?_⟩
      rw [Eval.call_eq, arity]
      exact if_pos other
  | @full fuel callee paren m arguments arity full =>
      refine ⟨m, discard_error.mpr ?_⟩
      rw [Eval.call_eq, arity]
      simp only [ne_eq, not_true_eq_false, if_false, full, if_true]
  | @raised fuel f paren _ _ _ arity room answer | @exhausts fuel f paren _ _ arity room answer
  | @alien fuel f paren _ _ _ arity room answer =>
      have run := call_native fuel paren arity room
      rw [answer] at run
      exact ⟨_, discard_error.mpr run⟩

theorem operand_fails {e : Expr}
    (fails : e.operands.mapM (fun e => evaluate c fuel e scope) m =
      .error (.error error) m') :
    ∃ b n, Starts c ⟨.expression e scope, fuel + 1, m⟩ b n ∧ b.Fails c error := by
  obtain ⟨before, x, after, vs, m₁, operands, done, fails⟩ := operands_error fails
  exact ⟨_, 0, .operand operands done, m', discard_error.mpr fails⟩

theorem expression_fails {e : Expr}
    (fails : evaluate c (fuel + 1) e scope m = .error (.error error) m') :
    (⟨.expression e scope, fuel + 1, m⟩ : Moment).Raises c error ∨
      ∃ b n, Starts c ⟨.expression e scope, fuel + 1, m⟩ b n ∧ b.Fails c error := by
  have first : ∀ {x : Expr} {rest : List Expr},
      evaluate c fuel x scope m = .error (.error error) m' →
      (x :: rest).mapM (fun e => evaluate c fuel e scope) m = .error (.error error) m' :=
    fun fails => mapM_cons_error.mpr (.inl fails)
  cases e with
  | literal => cases fails
  | grouping inner => exact .inr (operand_fails (first fails))
  | unary operator operand =>
      rcases bind_error.mp fails with fails | ⟨v, m₁, done, ends⟩
      · exact .inr (operand_fails (first fails))
      · exact .inl (.unary done (ofExcept_error.mp ends).1)
  | binary left operator right =>
      rcases bind_error.mp fails with fails | ⟨v, m₁, done, fails⟩
      · exact .inr (operand_fails (first fails))
      rcases bind_error.mp fails with fails | ⟨u, m₂, done', ends⟩
      · exact .inr (operand_fails
          (mapM_cons_error.mpr (.inr ⟨v, m₁, done, mapM_cons_error.mpr (.inl fails)⟩)))
      · exact .inl (.binary done done' (ofExcept_error.mp ends).1)
  | logical left operator right =>
      rcases bind_error.mp fails with fails | ⟨v, m₁, done, fails⟩
      · exact .inr (operand_fails (first fails))
      · split at fails
        · cases fails
        · rename_i undecided
          exact .inr ⟨_, 0, .right done (by simpa using undecided), m', discard_error.mpr fails⟩
  | «variable» name =>
      rw [evaluate, Eval.lookup_eq] at fails
      cases found : m.store.resolve? scope name.lexeme with
      | none =>
          rw [found] at fails
          cases fails
          exact .inl (.name found)
      | some owner =>
          rw [found] at fails
          cases fails
  | assign name value =>
      rcases bind_error.mp fails with fails | ⟨v, m₁, done, ends⟩
      · exact .inr (operand_fails (first fails))
      · rcases bind_error.mp ends with ends | ⟨u, m₂, -, ends⟩
        · rw [Eval.assign_eq] at ends
          cases found : m₁.store.resolve? scope name.lexeme with
          | none =>
              rw [found] at ends
              cases ends
              exact .inl (.assign done found)
          | some owner =>
              rw [found] at ends
              cases ends
        · cases ends
  | call callee paren arguments =>
      rcases bind_error.mp fails with fails | ⟨v, m₁, done, fails⟩
      · exact .inr (operand_fails (first fails))
      rcases bind_error.mp fails with fails | ⟨vs, m₂, done', fails⟩
      · exact .inr (operand_fails (mapM_cons_error.mpr (.inr ⟨v, m₁, done, fails⟩)))
      · have all : (callee :: arguments).mapM (fun e => evaluate c fuel e scope) m =
            .ok (v :: vs) m₂ := by
          rw [List.mapM_cons, bind_eq done, bind_eq done']
          rfl
        exact .inr ⟨_, 0, .attempt all, m', discard_error.mpr fails⟩

theorem value_fails {s : Stmt} {e : Expr} (first : s.operand? = some e)
    (fails : evaluate c fuel e scope m = .error (.error error) m') :
    ∃ b n, Starts c ⟨.statement s scope, fuel + 1, m⟩ b n ∧ b.Fails c error :=
  ⟨_, 0, .value first, m', discard_error.mpr fails⟩

theorem statement_fails {s : Stmt}
    (fails : execute c (fuel + 1) s scope m = .error (.error error) m') :
    ∃ b n, Starts c ⟨.statement s scope, fuel + 1, m⟩ b n ∧ b.Fails c error := by
  cases s with
  | expression value =>
      rcases bind_error.mp fails with fails | ⟨v, m₁, -, ends⟩
      · exact value_fails rfl (discard_error.mp fails)
      · cases ends
  | print value =>
      rcases bind_error.mp fails with fails | ⟨v, m₁, -, ends⟩
      · exact value_fails rfl fails
      · cases ends
  | varDecl name initializer =>
      cases initializer with
      | none => cases fails
      | some value =>
          rcases bind_error.mp fails with fails | ⟨v, m₁, -, ends⟩
          · exact value_fails rfl fails
          · cases ends
  | block body => exact ⟨_, 0, .block, m', discard_error.mpr fails⟩
  | ifElse condition whenTrue whenFalse =>
      rw [execute_ifElse] at fails
      rcases bind_error.mp fails with fails | ⟨v, m₁, tested, fails⟩
      · exact value_fails rfl fails
      · cases truthy : v.truthy with
        | true =>
            rw [if_pos truthy] at fails
            exact ⟨_, 0, .whenTrue tested truthy, m', discard_error.mpr fails⟩
        | false =>
            rw [if_neg (by simp [truthy])] at fails
            cases whenFalse with
            | none => cases fails
            | some s => exact ⟨_, 0, .whenFalse tested truthy, m', discard_error.mpr fails⟩
  | whileLoop condition body =>
      rcases bind_error.mp fails with fails | ⟨v, m₁, tested, fails⟩
      · exact value_fails rfl fails
      · cases truthy : v.truthy with
        | false =>
            rw [if_neg (by simp [truthy])] at fails
            cases fails
        | true =>
            rw [if_pos truthy] at fails
            rcases bind_error.mp fails with fails | ⟨completion, m₂, done, fails⟩
            · exact ⟨_, 0, .round tested truthy, m', discard_error.mpr fails⟩
            · cases completion with
              | normal => exact ⟨_, 0, .again tested truthy done, m', discard_error.mpr fails⟩
              | returning value => cases fails
  | funDecl name params body => cases fails
  | returnStmt keyword value =>
      cases value with
      | none => cases fails
      | some e =>
          rcases bind_error.mp fails with fails | ⟨v, m₁, -, ends⟩
          · exact value_fails rfl fails
          · cases ends

theorem active_error {α : Type} {inside : Eval α} (fails : Eval.active inside m = .error stop m') :
    ∃ m₁, inside { m with depth := m.depth + 1 } = .error stop m₁ := by
  unfold Eval.active at fails
  split at fails
  · cases fails
  · rename_i run
    cases fails
    exact ⟨_, run⟩

theorem enter_ok (f : Function) (arguments : List Value) (m : Machine) :
    ∃ scope m', Eval.enter f arguments m = .ok scope m' := by
  have binds : ∀ (items : List (Token × Value)) (scope : Nat) (m : Machine),
      ∃ m', (items.forM (fun (p, v) => Eval.define scope p.lexeme v) : Eval Unit) m = .ok () m' := by
    intro items scope
    induction items with
    | nil => exact fun m => ⟨m, rfl⟩
    | cons item items ih => exact fun m => ih { m with store := m.store.define scope _ _ }
  obtain ⟨m', bound⟩ := binds (f.params.zip arguments) m.store.size
    { m with store := m.store.push (some f.closure) }
  exact ⟨m.store.size, m', bind_ok.mpr ⟨_, _, rfl, bind_ok.mpr ⟨(), m', bound, rfl⟩⟩⟩

theorem guarded_error {α : Type} {paren : Token} {inside : Eval α}
    (fails : Eval.guarded paren inside m = .error stop m') :
    inside m = .error stop m' ∨
      inside m = .error .exhausted m' ∧ stop = .error ⟨.stackOverflow, paren⟩ := by
  rw [Eval.guarded_eq] at fails
  split at fails
  · rename_i run
    cases fails
    exact .inr ⟨run, rfl⟩
  · exact .inl fails

theorem native_fails {f : Native} {paren : Token} {arguments : List Value}
    (arity : f.arity = arguments.length) (room : m.depth < c.limit)
    (fails : Eval.call c (Eval.body c fuel) (.native f) paren arguments m =
      .error (.error error) m') :
    (⟨.call (.native f) paren arguments, fuel, m⟩ : Moment).Raises c error := by
  rw [call_native fuel paren arity room] at fails
  cases answer : (c.act f m.calls arguments).answer with
  | raises e =>
      rw [answer] at fails
      cases fails
      exact .raised arity room answer
  | exhausts =>
      rw [answer] at fails
      cases fails
      exact .exhausts arity room answer
  | returns result =>
      rw [answer] at fails
      cases result with
      | value v => cases fails
      | alien typeName =>
          cases fails
          exact .alien arity room answer

theorem call_fails {callee : Value} {paren : Token} {arguments : List Value}
    (fails : Eval.call c (Eval.body c fuel) callee paren arguments m =
      .error (.error error) m') :
    (⟨.call callee paren arguments, fuel, m⟩ : Moment).Raises c error ∨
      ∃ b n, Starts c ⟨.call callee paren arguments, fuel, m⟩ b n ∧ b.Fails c error := by
  have whole := fails
  rw [Eval.call_eq] at fails
  cases takes : callee.arity? with
  | none =>
      rw [takes] at fails
      cases fails
      exact .inl (.notCallable takes)
  | some arity =>
      rw [takes] at fails
      dsimp only at fails
      by_cases count : arguments.length ≠ arity
      · rw [if_pos count] at fails
        cases fails
        exact .inl (.arity takes count)
      rw [if_neg count] at fails
      obtain rfl : arguments.length = arity := by simpa using count
      by_cases full : c.limit ≤ m.depth
      · rw [if_pos full] at fails
        cases fails
        exact .inl (.full takes full)
      rw [if_neg full] at fails
      cases callee with
      | nil | bool | number | string => cases takes
      | native f =>
          exact .inl (native_fails (Option.some.inj takes) (Int.not_le.mp full) whole)
      | function f =>
          obtain ⟨scope, m₁, entered⟩ := enter_ok f arguments { m with depth := m.depth + 1 }
          have count := Option.some.inj takes
          refine .inr ⟨_, 1, .enter count.symm (Int.not_le.mp full) entered, ?_⟩
          obtain ⟨m₂, fails⟩ := active_error fails
          have inside : ∀ {stop}, Eval.applyFunction (Eval.body c fuel) f arguments
              { m with depth := m.depth + 1 } = .error stop m₂ →
              Eval.body c fuel f.body scope m₁ = .error stop m₂ := fun fails => by
            rw [Eval.applyFunction_eq, bind_eq entered] at fails
            rcases bind_error.mp fails with fails | ⟨completion, m₃, -, ends⟩
            · exact fails
            · cases completion <;> cases ends
          rcases guarded_error fails with fails | ⟨fails, -⟩
          · exact ⟨m₂, discard_error.mpr (inside fails)⟩
          -- The guard turns an exhausted stack into the error, and no body ends with that.
          · exact absurd (inside fails) (body_contained c fuel f.body scope _ _)

end

/-! ## The source of an error -/

theorem Moment.Fails.source {e : RuntimeError} (h : a.Fails c e) :
    a.Raises c e ∨ ∃ b n, Starts c a b n ∧ b.Fails c e := by
  obtain ⟨task, fuel, m⟩ := a
  obtain ⟨m', fails⟩ := h
  cases task with
  | program statements =>
      obtain ⟨before, s, after, m₁, rfl, done, fails⟩ := program_error fails
      exact .inr ⟨_, 0, .top done, m', discard_error.mpr fails⟩
  | body statements scope =>
      obtain ⟨before, s, after, m₁, rfl, done, fails⟩ := body_error (discard_error.mp fails)
      exact .inr ⟨_, 0, .item done, m', discard_error.mpr fails⟩
  | statement s scope =>
      cases fuel with
      | zero => cases discard_error.mp fails
      | succ fuel => exact .inr (statement_fails (discard_error.mp fails))
  | expression e scope =>
      cases fuel with
      | zero => cases discard_error.mp fails
      | succ fuel => exact expression_fails (discard_error.mp fails)
  | call callee paren arguments => exact call_fails (discard_error.mp fails)

def Moment.room (a : Moment) : Nat :=
  match a.task with
  | .call .. => 3 * a.fuel + 2
  | .program _ | .body .. => 3 * a.fuel + 1
  | .statement .. | .expression .. => 3 * a.fuel

theorem Starts.room_lt (h : Starts c a b n) : b.room < a.room := by
  cases h <;> simp only [Moment.room] <;> omega

theorem depth_of_ok {α : Type} {x : Eval α} {v : α} (lasts : x.Lasts) (done : x m = .ok v m') :
    m'.depth = m.depth := by
  have later := lasts m
  rw [Eval.after, done] at later
  exact later.depth

theorem Starts.depth (h : Starts c a b n) : b.machine.depth = a.machine.depth + n := by
  obtain ⟨evaluates, executes⟩ : (∀ fuel e scope, (evaluate c fuel e scope).Lasts) ∧
      ∀ fuel s scope, (execute c fuel s scope).Lasts :=
    ⟨fun fuel => (evaluation_lasts c fuel).1, fun fuel => (evaluation_lasts c fuel).2⟩
  cases h with
  | top done =>
      exact depth_of_ok (program_lasts _ _ _) done
  | item done => exact depth_of_ok (body_lasts _ _ _ _) done
  | value | block => rfl
  | whenTrue tested | whenFalse tested | round tested => exact depth_of_ok (evaluates _ _ _) tested
  | again tested _ done =>
      exact (depth_of_ok (executes _ _ _) done).trans (depth_of_ok (evaluates _ _ _) tested)
  | operand _ done => exact depth_of_ok (Eval.Lasts.mapM fun e => evaluates _ e _) done
  | right done => exact depth_of_ok (evaluates _ _ _) done
  | attempt done => exact depth_of_ok (Eval.Lasts.mapM fun e => evaluates _ e _) done
  | enter count room entered =>
      refine depth_of_ok (x := Eval.enter _ _) ?_ entered
      exact (Eval.Lasts.openScope _).bind fun _ => (Eval.Lasts.forM fun _ => .define _ _ _).bind
        fun _ => .pure _

theorem Reaches.depth (h : Reaches c a b n) : b.machine.depth = a.machine.depth + n := by
  induction h with
  | here => rfl
  | step first rest ih => rw [ih, first.depth, Nat.add_assoc]

/-- Work ends in an error exactly if the error arises in it or in something that happens in its
course. -/
theorem fails_iff (e : RuntimeError) :
    a.Fails c e ↔ ∃ b n, Reaches c a b n ∧ b.Raises c e := by
  constructor
  · intro h
    -- An error is followed to its source, through work that has ever less room.
    induction room : a.room using Nat.strongRecOn generalizing a with
    | ind room ih =>
        rcases h.source with raises | ⟨b, n, start, fails⟩
        · exact ⟨a, 0, .here, raises⟩
        · obtain ⟨d, k, reaches, raises⟩ := ih b.room (room ▸ start.room_lt) fails rfl
          exact ⟨d, n + k, .step start reaches, raises⟩
  · rintro ⟨b, n, reaches, raises⟩
    induction reaches with
    | here => exact raises.fails
    | step first rest ih =>
        obtain ⟨m, fails⟩ := ih raises
        exact first.fails fails

/-! ## Overflows -/

def Moment.Overflows (c : Context) (a : Moment) (t : Token) : Prop :=
  ∃ m, a.run c = .error (.error ⟨.stackOverflow, t⟩) m

def Moment.Refused (c : Context) (a : Moment) (t : Token) : Prop :=
  ∃ callee arguments, a.task = .call callee t arguments ∧
    callee.arity? = some arguments.length ∧ c.limit ≤ a.machine.depth

/-- A call of a built-in function that exhausts the stack, or that reports an overflow itself. -/
def Moment.Overflowed (c : Context) (a : Moment) (t : Token) : Prop :=
  ∃ f paren arguments, a.task = .call (.native f) paren arguments ∧ f.arity = arguments.length ∧
    a.machine.depth < c.limit ∧
    ((c.act f a.machine.calls arguments).answer = .raises ⟨.stackOverflow, t⟩ ∨
      (c.act f a.machine.calls arguments).answer = .exhausts ∧ paren = t)

theorem raises_overflow_iff (t : Token) :
    a.Raises c ⟨.stackOverflow, t⟩ ↔ a.Refused c t ∨ a.Overflowed c t := by
  constructor
  · intro h
    cases h with
    | unary _ fails => rcases Value.applyUnary_error fails with same | same <;> cases same
    | binary _ _ fails => rcases Value.applyBinary_error fails with same | same | same <;> cases same
    | @full fuel callee _ m arguments arity full => exact .inl ⟨callee, arguments, rfl, arity, full⟩
    | @raised fuel f paren m _ arguments arity room answer =>
        exact .inr ⟨f, paren, arguments, rfl, arity, room, .inl answer⟩
    | @exhausts fuel f _ m arguments arity room answer =>
        exact .inr ⟨f, t, arguments, rfl, arity, room, .inr ⟨answer, rfl⟩⟩
  · obtain ⟨task, fuel, m⟩ := a
    rintro (⟨callee, arguments, rfl, arity, full⟩ |
      ⟨f, paren, arguments, rfl, arity, room, answer | ⟨answer, rfl⟩⟩)
    · exact .full arity full
    · exact .raised arity room answer
    · exact .exhausts arity room answer

theorem overflows_iff (t : Token) :
    a.Overflows c t ↔ ∃ b n, Reaches c a b n ∧ (b.Refused c t ∨ b.Overflowed c t) :=
  (fails_iff _).trans (exists_congr fun _ => exists_congr fun _ =>
    and_congr_right fun _ => raises_overflow_iff t)

end Lox
