import Lox.Proofs.Evaluation.Moment

/-!
Evaluation in which `return` is a jump.

`Unwinding.execute` has no completions to pass on: a `return` throws its value, which gives up all
work up to the innermost call, and the call catches it. `evaluation_eq` says that this is what
execution with completions does.
-/

namespace Lox

/-- Why work is given up: evaluation stops, or a `return` ends the activation. -/
inductive Exit where
  | stop (stop : Stop)
  | jump (value : Value)

abbrev Unwinding (α : Type) := EStateM Exit Machine α

namespace Unwinding

variable {α β : Type}

def plain (x : Eval α) : Unwinding α := fun m =>
  match x m with
  | .ok a m => .ok a m
  | .error stop m => .error (.stop stop) m

def catching (body : Unwinding Unit) : Unwinding Value := fun m =>
  match body m with
  | .ok () m => .ok .nil m
  | .error (.jump value) m => .ok value m
  | .error (.stop stop) m => .error (.stop stop) m

def active (inside : Unwinding α) : Unwinding α := fun m =>
  match inside { m with depth := m.depth + 1 } with
  | .ok a m => .ok a { m with depth := m.depth - 1 }
  | .error exit m => .error exit { m with depth := m.depth - 1 }

def guarded (paren : Token) (inside : Unwinding α) : Unwinding α :=
  tryCatch inside fun
    | .stop .exhausted => plain (Eval.fail .stackOverflow paren)
    | exit => throw exit

/-- Calls a value after the same checks as `Eval.call`. -/
def call (context : Context) (run : List Stmt → Nat → Unwinding Unit) (callee : Value)
    (paren : Token) (arguments : List Value) : Unwinding Value := do
  match callee.arity? with
  | none => plain (Eval.fail .notCallable paren)
  | some arity =>
      if arguments.length ≠ arity then
        plain (Eval.fail (.arity arity arguments.length) paren)
      if context.limit ≤ (← get).depth then plain (Eval.fail .stackOverflow paren)
      match callee with
      | .function f => active <| guarded paren do
          let scope ← plain (Eval.enter f arguments)
          catching (run f.body scope)
      | .native f => do
          let result ← active (guarded paren (plain (Eval.applyNative context f arguments)))
          plain (Eval.unwrap paren result)
      | _ => plain (Eval.fail .notCallable paren)

mutual

def evaluate (context : Context) : (fuel : Nat) → Expr → (scope : Nat) → Unwinding Value
  | 0, _, _ => throw (.stop .outOfFuel)
  | fuel + 1, e, scope =>
      match e with
      | .literal value => return value.toValue
      | .grouping inner => evaluate context fuel inner scope
      | .unary operator operand => do
          let value ← evaluate context fuel operand scope
          plain (Eval.ofExcept (Value.applyUnary operator value))
      | .binary left operator right => do
          let a ← evaluate context fuel left scope
          let b ← evaluate context fuel right scope
          plain (Eval.ofExcept (Value.applyBinary operator a b))
      | .logical left operator right => do
          let value ← evaluate context fuel left scope
          if Value.decides operator value then return value
          else evaluate context fuel right scope
      | .variable name => plain (Eval.lookup scope name)
      | .assign name value => do
          let value ← evaluate context fuel value scope
          plain (Eval.assign scope name value)
          return value
      | .call callee paren arguments => do
          let callee ← evaluate context fuel callee scope
          let arguments ← arguments.mapM fun argument => evaluate context fuel argument scope
          let run := fun body scope => List.forM body fun s => execute context fuel s scope
          call context run callee paren arguments

def execute (context : Context) : (fuel : Nat) → Stmt → (scope : Nat) → Unwinding Unit
  | 0, _, _ => throw (.stop .outOfFuel)
  | fuel + 1, s, scope =>
      match s with
      | .expression value => discard (evaluate context fuel value scope)
      | .print value => do
          let value ← evaluate context fuel value scope
          plain (Eval.printLine value.text)
      | .varDecl name none => plain (Eval.define scope name.lexeme .nil)
      | .varDecl name (some e) => do
          let value ← evaluate context fuel e scope
          plain (Eval.define scope name.lexeme value)
      | .block body => do
          let inside ← plain (Eval.openScope scope)
          body.forM fun s => execute context fuel s inside
      | .ifElse condition whenTrue whenFalse => do
          if (← evaluate context fuel condition scope).truthy then
            execute context fuel whenTrue scope
          else
            match whenFalse with
            | some s => execute context fuel s scope
            | none => return ()
      | .whileLoop condition body => do
          if (← evaluate context fuel condition scope).truthy then
            execute context fuel body scope
            execute context fuel (.whileLoop condition body) scope
          else
            return ()
      | .funDecl name params body => plain (Eval.declare scope name params body)
      | .returnStmt _ none => throw (.jump .nil)
      | .returnStmt _ (some e) => do
          let value ← evaluate context fuel e scope
          throw (.jump value)

end

def program (context : Context) (fuel : Nat) (statements : List Stmt) : Unwinding Unit :=
  statements.forM fun s => execute context fuel s Interpreter.globals

def ofCompletion : Completion → Unwinding Unit
  | .normal => return ()
  | .returning value => throw (.jump value)

/-- Execution in which a `return` that would be passed on jumps. -/
def jumping (x : Eval Completion) : Unwinding Unit := plain x >>= ofCompletion

theorem plain_bind (x : Eval α) (f : α → Eval β) :
    plain (x >>= f) = plain x >>= fun a => plain (f a) := by
  funext m
  simp only [plain, bind, EStateM.bind]
  cases x m with
  | ok a m => rfl
  | error stop m => rfl

theorem plain_discard (x : Eval α) : plain (discard x) = discard (plain x) := by
  funext m
  simp only [plain, discard, Functor.discard, Functor.mapConst, Function.comp, EStateM.map]
  cases x m with
  | ok a m => rfl
  | error stop m => rfl

theorem plain_mapM (f : α → Eval β) (items : List α) :
    plain (items.mapM f) = items.mapM fun a => plain (f a) := by
  induction items with
  | nil => rfl
  | cons a items ih =>
      rw [List.mapM_cons, List.mapM_cons, plain_bind]
      congr 1
      funext b
      rw [plain_bind, ih]
      rfl

theorem jumping_bind (x : Eval α) (f : α → Eval Completion) :
    jumping (x >>= f) = plain x >>= fun a => jumping (f a) := by
  unfold jumping
  rw [plain_bind, bind_assoc]

theorem jumping_normally (x : Eval Unit) :
    jumping (do x; return .normal) = plain x := by
  rw [jumping_bind]
  exact bind_pure _

theorem jumping_andThen (x y : Eval Completion) :
    jumping (do
      match ← x with
      | .normal => y
      | .returning value => return .returning value) = (do jumping x; jumping y) := by
  rw [jumping_bind]
  unfold jumping
  rw [bind_assoc]
  congr 1
  funext completion
  cases completion with
  | normal => rfl
  | returning value => rfl

theorem jumping_sequence {step : Stmt → Eval Completion} (body : List Stmt) :
    jumping (Eval.sequence step body) = body.forM fun s => jumping (step s) := by
  induction body with
  | nil => rfl
  | cons s body ih =>
      refine (jumping_andThen (step s) (Eval.sequence step body)).trans ?_
      rw [ih]
      rfl

theorem active_plain (x : Eval α) : active (plain x) = plain (Eval.active x) := by
  funext m
  simp only [active, plain, Eval.active]
  cases x { m with depth := m.depth + 1 } with
  | ok a m => rfl
  | error stop m => rfl

theorem guarded_plain (paren : Token) (x : Eval α) :
    guarded paren (plain x) = plain (Eval.guarded paren x) := by
  funext m
  simp only [guarded, plain, Eval.guarded_eq, tryCatch, tryCatchThe, MonadExceptOf.tryCatch,
    EStateM.tryCatch]
  cases x m with
  | ok a m => rfl
  | error stop m => cases stop <;> rfl

theorem catching_jumping (x : Eval Completion) :
    catching (jumping x) = plain (do
      match ← x with
      | .normal => return .nil
      | .returning value => return value) := by
  funext m
  simp only [catching, jumping, plain, bind, EStateM.bind]
  cases x m with
  | ok completion m => cases completion <;> rfl
  | error stop m => rfl

theorem call_plain (c : Context) (run : List Stmt → Nat → Eval Completion) (callee : Value)
    (paren : Token) (arguments : List Value) :
    call c (fun body scope => jumping (run body scope)) callee paren arguments =
      plain (Eval.call c run callee paren arguments) := by
  have inside : ∀ f : Function, (do
      let scope ← plain (Eval.enter f arguments)
      catching (jumping (run f.body scope))) = plain (Eval.applyFunction run f arguments) := by
    intro f
    rw [Eval.applyFunction_eq, plain_bind]
    congr 1
    funext scope
    exact catching_jumping _
  funext m
  rw [plain, Eval.call_eq]
  unfold call
  cases callee.arity? with
  | none => rfl
  | some arity =>
      dsimp only
      split
      · rfl
      · simp only [bind, EStateM.bind, get, getThe, MonadStateOf.get, EStateM.get]
        split
        · rfl
        · cases callee with
          | function f =>
              change active (guarded paren _) m =
                plain (Eval.active (Eval.guarded paren (Eval.applyFunction run f arguments))) m
              rw [← active_plain, ← guarded_plain, ← inside]
              rfl
          | native f =>
              change (active _ >>= _) m = plain (Eval.active _ >>= _) m
              rw [plain_bind, ← active_plain, ← guarded_plain]
          | nil | bool | number | string => rfl

theorem evaluation_eq (c : Context) (fuel : Nat) :
    (∀ e scope, evaluate c fuel e scope = plain (Lox.evaluate c fuel e scope)) ∧
      ∀ s scope, execute c fuel s scope = jumping (Lox.execute c fuel s scope) := by
  induction fuel with
  | zero => exact ⟨fun _ _ => rfl, fun _ _ => rfl⟩
  | succ fuel ih =>
      obtain ⟨expressions, statements⟩ := ih
      -- A jump leaves the plain loop over the body, where a completion has to be looked at.
      have bodies : ∀ (body : List Stmt) (scope : Nat),
          (body.forM fun s => execute c fuel s scope) =
            jumping (Eval.sequence (fun s => Lox.execute c fuel s scope) body) := by
        intro body scope
        rw [jumping_sequence]
        simp only [statements]
      constructor
      · intro e scope
        cases e with
        | literal => rfl
        | grouping inner => exact expressions inner scope
        | unary operator operand =>
            simp only [evaluate, Lox.evaluate, plain_bind, expressions]
        | binary left operator right =>
            simp only [evaluate, Lox.evaluate, plain_bind, expressions]
        | logical left operator right =>
            simp only [evaluate, Lox.evaluate, plain_bind, expressions]
            congr 1
            funext value
            split
            · rfl
            · rfl
        | «variable» name => rfl
        | assign name value =>
            simp only [evaluate, Lox.evaluate, plain_bind, expressions]
            rfl
        | call callee paren arguments =>
            simp only [evaluate, Lox.evaluate, plain_bind, plain_mapM, expressions, bodies,
              call_plain]
      · intro s scope
        cases s with
        | expression value =>
            simp only [execute, Lox.execute, jumping_normally, plain_discard, expressions]
        | print value =>
            simp only [execute, Lox.execute, jumping_bind, expressions]
            rfl
        | varDecl name initializer =>
            cases initializer with
            | none => rfl
            | some e =>
                simp only [execute, Lox.execute, jumping_bind, expressions]
                rfl
        | block body =>
            simp only [execute, Lox.execute, jumping_bind, bodies]
        | ifElse condition whenTrue whenFalse =>
            simp only [execute, execute_ifElse, jumping_bind, expressions]
            congr 1
            funext value
            split
            · exact statements whenTrue scope
            · cases whenFalse with
              | none => rfl
              | some s => exact statements s scope
        | whileLoop condition body =>
            simp only [execute, Lox.execute, jumping_bind, expressions]
            congr 1
            funext value
            split
            · rw [statements, statements]
              exact (jumping_andThen _ _).symm
            · rfl
        | funDecl name params body =>
            simp only [execute, Lox.execute, jumping_normally]
        | returnStmt keyword value =>
            cases value with
            | none => rfl
            | some e =>
                simp only [execute, Lox.execute, jumping_bind, expressions]
                rfl

end Unwinding

end Lox
