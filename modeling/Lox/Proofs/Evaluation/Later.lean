import Lox.Interpreter
import Lox.Proofs.Step

namespace Lox

variable {α β : Type}

def Eval.after (x : Eval α) (m : Machine) : Machine := final (x m)

def Eval.program (context : Context) (fuel : Nat) (statements : List Stmt) : Eval Unit :=
  statements.forM fun s => discard (execute context fuel s Interpreter.globals)

def Eval.body (context : Context) (fuel : Nat) (statements : List Stmt) (scope : Nat) :
    Eval Completion :=
  sequence (fun s => execute context fuel s scope) statements

theorem Eval.program_append (c : Context) (fuel : Nat) (before after : List Stmt) :
    program c fuel (before ++ after) =
      (do program c fuel before; program c fuel after) := by
  induction before with
  | nil => rfl
  | cons s before ih =>
      change (do discard (execute c fuel s Interpreter.globals); program c fuel (before ++ after)) =
        (do
          (do discard (execute c fuel s Interpreter.globals); program c fuel before)
          program c fuel after)
      rw [ih, bind_assoc]

theorem Eval.body_append (c : Context) (fuel : Nat) (before after : List Stmt) (scope : Nat) :
    body c fuel (before ++ after) scope = do
      match ← body c fuel before scope with
      | .normal => body c fuel after scope
      | .returning value => return .returning value := by
  induction before with
  | nil => rfl
  | cons s before ih =>
      change (do
          match ← execute c fuel s scope with
          | .normal => body c fuel (before ++ after) scope
          | .returning value => return .returning value) =
        (do
          match ← (do
            match ← execute c fuel s scope with
            | .normal => body c fuel before scope
            | .returning value => return .returning value) with
          | .normal => body c fuel after scope
          | .returning value => return .returning value)
      rw [bind_assoc]
      congr 1
      funext completion
      cases completion with
      | normal => exact ih
      | returning value => rfl

theorem Eval.lookup_eq (scope : Nat) (name : Token) (m : Machine) :
    lookup scope name m = match m.store.resolve? scope name.lexeme with
      | some (_, value) => .ok value m
      | none => .error (.error ⟨.undefinedVariable, name⟩) m := by
  simp only [lookup, bind, EStateM.bind, get, getThe, MonadStateOf.get, EStateM.get, Store.get?]
  cases m.store.resolve? scope name.lexeme <;> rfl

theorem Eval.assign_eq (scope : Nat) (name : Token) (value : Value) (m : Machine) :
    assign scope name value m = match m.store.resolve? scope name.lexeme with
      | some (owner, _) => .ok () { m with store := m.store.define owner name.lexeme value }
      | none => .error (.error ⟨.undefinedVariable, name⟩) m := by
  simp only [assign, bind, EStateM.bind, get, getThe, MonadStateOf.get, EStateM.get]
  cases m.store.resolve? scope name.lexeme <;> rfl

def Eval.invoke (context : Context) (run : List Stmt → Nat → Eval Completion) (callee : Value)
    (paren : Token) (arguments : List Value) : Eval Value :=
  match callee with
  | .function f => active (guarded paren (applyFunction run f arguments))
  | .native f => do unwrap paren (← active (guarded paren (applyNative context f arguments)))
  | _ => fail .notCallable paren

theorem Eval.guarded_eq (paren : Token) (inside : Eval α) (m : Machine) :
    guarded paren inside m = match inside m with
      | .error .exhausted m' => .error (.error ⟨.stackOverflow, paren⟩) m'
      | result => result := by
  simp only [guarded, tryCatch, tryCatchThe, MonadExceptOf.tryCatch, EStateM.tryCatch]
  cases inside m with
  | ok a m' => rfl
  | error stop m' => cases stop <;> rfl

def Machine.consulted (m : Machine) (printed : List String) : Machine :=
  { m with calls := m.calls + 1, output := m.output ++ printed }

theorem Eval.applyNative_eq (context : Context) (f : Native) (arguments : List Value)
    (m : Machine) :
    applyNative context f arguments m =
      let after := m.consulted (context.act f m.calls arguments).printed
      match (context.act f m.calls arguments).answer with
      | .returns result => .ok result after
      | .raises e => .error (.error e) after
      | .exhausts => .error .exhausted after := by
  have run : consult context f arguments m = .ok (context.act f m.calls arguments).answer
      (m.consulted (context.act f m.calls arguments).printed) := rfl
  rw [applyNative, bind_eq run]
  cases (context.act f m.calls arguments).answer <;> rfl

theorem Eval.call_eq (context : Context) (run : List Stmt → Nat → Eval Completion) (callee : Value)
    (paren : Token) (arguments : List Value) (m : Machine) :
    call context run callee paren arguments m =
      match callee.arity? with
      | none => .error (.error ⟨.notCallable, paren⟩) m
      | some arity =>
          if arguments.length ≠ arity then .error (.error ⟨.arity arity arguments.length, paren⟩) m
          else if context.limit ≤ m.depth then .error (.error ⟨.stackOverflow, paren⟩) m
          else invoke context run callee paren arguments m := by
  unfold call
  cases callee.arity? with
  | none => rfl
  | some arity =>
      dsimp only
      split
      · rfl
      · simp only [bind, EStateM.bind, get, getThe, MonadStateOf.get, EStateM.get]
        split
        · rfl
        · rfl

/-! ## Properties of all evaluations -/

structure Eval.Composes (P : ∀ {α : Type}, Eval α → Prop) : Prop where
  pure {α : Type} (a : α) : P (Pure.pure a)
  bind {α β : Type} {x : Eval α} {f : α → Eval β} : P x → (∀ a, P (f a)) → P (x >>= f)

namespace Eval.Composes

variable {P : ∀ {α : Type}, Eval α → Prop} (h : Composes P)
include h

theorem normally {x : Eval α} (first : P x) : P (do let _ ← x; return Completion.normal) :=
  h.bind first fun _ => h.pure _

theorem forM {items : List α} {f : α → Eval PUnit} (each : ∀ a, P (f a)) : P (items.forM f) := by
  induction items with
  | nil => exact h.pure _
  | cons a items ih => exact h.bind (each a) fun _ => ih

theorem mapM {items : List α} {f : α → Eval β} (each : ∀ a, P (f a)) : P (items.mapM f) := by
  induction items with
  | nil => exact h.pure _
  | cons a items ih =>
      rw [List.mapM_cons]
      exact h.bind (each a) fun _ => h.bind ih fun _ => h.pure _

theorem andThen {x y : Eval Completion} (first : P x) (next : P y) :
    P (do
      match ← x with
      | .normal => y
      | .returning value => return .returning value) := by
  apply h.bind first
  intro completion
  cases completion with
  | normal => exact next
  | returning value => exact h.pure _

theorem sequence {step : Stmt → Eval Completion} (each : ∀ s, P (step s)) (body : List Stmt) :
    P (sequence step body) := by
  induction body with
  | nil => exact h.pure _
  | cons s body ih => exact h.andThen (each s) ih

end Eval.Composes

/-- A property of evaluations that all steps have, and each call if bodies have it. -/
structure Eval.Closed (context : Context) (P : ∀ {α : Type}, Eval α → Prop) : Prop
    extends Composes P where
  outOfFuel {α : Type} : P (throw .outOfFuel : Eval α)
  ofExcept (result : Except RuntimeError Value) : P (ofExcept result)
  printLine (line : String) : P (printLine line)
  openScope (enclosing : Nat) : P (openScope enclosing)
  define (scope : Nat) (name : String) (value : Value) : P (define scope name value)
  lookup (scope : Nat) (name : Token) : P (lookup scope name)
  assign (scope : Nat) (name : Token) (value : Value) : P (assign scope name value)
  declare (scope : Nat) (name : Token) (params : List Token) (body : List Stmt) :
    P (declare scope name params body)
  call {run : List Stmt → Nat → Eval Completion} : (∀ body scope, P (run body scope)) →
    ∀ callee paren arguments, P (call context run callee paren arguments)

theorem Eval.Closed.evaluation {context : Context} {P : ∀ {α : Type}, Eval α → Prop}
    (h : Closed context P) (fuel : Nat) :
    (∀ e scope, P (evaluate context fuel e scope)) ∧ ∀ s scope, P (execute context fuel s scope) := by
  induction fuel with
  | zero => exact ⟨fun _ _ => h.outOfFuel, fun _ _ => h.outOfFuel⟩
  | succ fuel ih =>
      obtain ⟨expressions, statements⟩ := ih
      -- A call runs the body with the fuel that the call itself is left with.
      have bodies : ∀ body scope, P (Eval.sequence (fun s => execute context fuel s scope) body) :=
        fun body scope => h.sequence (fun s => statements s scope) body
      refine ⟨fun e scope => ?_, fun s scope => ?_⟩
      · cases e with
        | literal => exact h.pure _
        | grouping inner => exact expressions inner scope
        | unary => exact h.bind (expressions _ scope) fun _ => h.ofExcept _
        | binary =>
            exact h.bind (expressions _ scope) fun _ => h.bind (expressions _ scope) fun _ =>
              h.ofExcept _
        | logical left operator right =>
            refine h.bind (expressions left scope) fun value => ?_
            split
            · exact h.pure _
            · exact expressions right scope
        | «variable» name => exact h.lookup scope name
        | assign name value =>
            exact h.bind (expressions value scope) fun _ => h.bind (h.assign _ _ _) fun _ =>
              h.pure _
        | call callee paren arguments =>
            exact h.bind (expressions callee scope) fun _ =>
              h.bind (h.mapM fun e => expressions e scope) fun _ => h.call bodies _ _ _
      · cases s with
        | expression value =>
            exact h.normally (h.bind (expressions value scope) fun _ => h.pure _)
        | print value =>
            exact h.bind (expressions value scope) fun _ => h.normally (h.printLine _)
        | varDecl name initializer =>
            cases initializer with
            | none => exact h.normally (h.define _ _ _)
            | some e => exact h.bind (expressions e scope) fun _ => h.normally (h.define _ _ _)
        | block body => exact h.bind (h.openScope scope) fun inside => bodies body inside
        | ifElse condition whenTrue whenFalse =>
            refine h.bind (expressions condition scope) fun value => ?_
            split
            · exact statements whenTrue scope
            · cases whenFalse with
              | none => exact h.pure _
              | some s => exact statements s scope
        | whileLoop condition body =>
            refine h.bind (expressions condition scope) fun value => ?_
            split
            · exact h.andThen (statements body scope) (statements _ scope)
            · exact h.pure _
        | funDecl name params body => exact h.normally (h.declare scope name params body)
        | returnStmt keyword value =>
            cases value with
            | none => exact h.pure _
            | some e => exact h.bind (expressions e scope) fun _ => h.pure _

structure Machine.Later (m m' : Machine) : Prop where
  output : m.output.toList <+: m'.output.toList
  depth : m'.depth = m.depth
  size : m.store.size ≤ m'.store.size
  enclosing {s : Nat} : s < m.store.size →
    (m'.store.scopes[s]?).map Scope.enclosing = (m.store.scopes[s]?).map Scope.enclosing
  declared : m.declared ≤ m'.declared
  calls : m.calls ≤ m'.calls

namespace Machine.Later

variable {m m' m'' : Machine}

theorem refl (m : Machine) : m.Later m :=
  ⟨List.prefix_refl _, rfl, Nat.le_refl _, fun _ => rfl, Nat.le_refl _, Nat.le_refl _⟩

theorem trans (first : m.Later m') (second : m'.Later m'') : m.Later m'' :=
  ⟨first.output.trans second.output, second.depth.trans first.depth,
    Nat.le_trans first.size second.size,
    fun old => (second.enclosing (Nat.lt_of_lt_of_le old first.size)).trans (first.enclosing old),
    Nat.le_trans first.declared second.declared, Nat.le_trans first.calls second.calls⟩

end Machine.Later

def Eval.Lasts (x : Eval α) : Prop := ∀ m : Machine, m.Later (x.after m)

namespace Eval.Lasts

/-! ## Steps -/

theorem pure (a : α) : Lasts (Pure.pure a) := fun m => .refl m

theorem throw (stop : Stop) : Lasts (MonadExcept.throw stop : Eval α) := fun m => .refl m

theorem bind {x : Eval α} {f : α → Eval β} (first : Lasts x) (next : ∀ a, Lasts (f a)) :
    Lasts (x >>= f) := by
  intro m
  have before := first m
  simp only [after] at before ⊢
  simp only [Bind.bind, EStateM.bind]
  cases run : x m with
  | ok a m' =>
      rw [run] at before
      exact before.trans (next a m')
  | error stop m' =>
      rw [run] at before
      exact before

theorem map {x : Eval α} (f : α → β) (h : Lasts x) : Lasts (f <$> x) := by
  rw [map_eq_pure_bind]
  exact h.bind fun a => .pure (f a)

theorem discard {x : Eval α} (h : Lasts x) : Lasts (Functor.discard x) := h.map _

theorem composes : Composes @Lasts := ⟨pure, bind⟩

theorem normally {x : Eval α} (h : Lasts x) : Lasts (do let _ ← x; return Completion.normal) :=
  composes.normally h

theorem ite {c : Prop} [Decidable c] {x y : Eval α} (yes : Lasts x) (no : Lasts y) :
    Lasts (if c then x else y) := by
  split
  · exact yes
  · exact no

theorem get : Lasts (MonadState.get : Eval Machine) := fun m => .refl m

theorem fail (cause : RuntimeError.Cause) (token : Token) : Lasts (fail cause token : Eval α) :=
  throw _

theorem ofExcept (result : Except RuntimeError α) : Lasts (ofExcept result) := by
  cases result with
  | ok a => exact .pure a
  | error e => exact .throw _

theorem printLine (line : String) : Lasts (printLine line) := fun _ =>
  ⟨⟨[line], Array.toList_push.symm⟩, rfl, Nat.le_refl _, fun _ => rfl, Nat.le_refl _,
    Nat.le_refl _⟩

theorem openScope (enclosing : Nat) : Lasts (openScope enclosing) := fun m =>
  ⟨List.prefix_refl _, rfl, Nat.le.intro (Store.size_push m.store _).symm,
    fun old => congrArg _ (Store.scopes_push_of_lt old _), Nat.le_refl _, Nat.le_refl _⟩

theorem define (scope : Nat) (name : String) (value : Value) : Lasts (define scope name value) := by
  refine fun m => ⟨List.prefix_refl _, rfl, Nat.le_of_eq (Store.size_define ..).symm, fun {s} _ => ?_,
    Nat.le_refl _, Nat.le_refl _⟩
  refine (congrArg _ (Store.scopes_define m.store scope s name value)).trans ?_
  split
  · cases m.store.scopes[s]? <;> rfl
  · rfl

theorem lookup (scope : Nat) (name : Token) : Lasts (lookup scope name) := by
  refine get.bind fun m => ?_
  split
  · exact .pure _
  · exact .fail _ _

theorem assign (scope : Nat) (name : Token) (value : Value) : Lasts (assign scope name value) := by
  refine get.bind fun m => ?_
  split
  · exact .define _ _ _
  · exact .fail _ _

theorem declare (scope : Nat) (name : Token) (params : List Token) (body : List Stmt) :
    Lasts (declare scope name params body) := by
  refine get.bind fun m => bind (fun m => ?_) fun _ => .define _ _ _
  exact ⟨List.prefix_refl _, rfl, Nat.le_refl _, fun _ => rfl, Nat.le_succ _, Nat.le_refl _⟩

theorem active {inside : Eval α} (h : Lasts inside) : Lasts (active inside) := by
  intro m
  have before := h { m with depth := m.depth + 1 }
  simp only [after, Eval.active] at before ⊢
  cases run : inside { m with depth := m.depth + 1 } with
  | ok a m' | error stop m' =>
      rw [run] at before
      exact ⟨before.output, congrArg (· - 1) before.depth, before.size, before.enclosing,
        before.declared, before.calls⟩

theorem guarded (paren : Token) {inside : Eval α} (h : Lasts inside) :
    Lasts (guarded paren inside) := by
  intro m
  have before := h m
  simp only [after] at before ⊢
  rw [guarded_eq]
  split
  · rename_i run
    rwa [run] at before
  · exact before

theorem forM {items : List α} {f : α → Eval PUnit} (each : ∀ a, Lasts (f a)) :
    Lasts (items.forM f) := composes.forM each

theorem mapM {items : List α} {f : α → Eval β} (each : ∀ a, Lasts (f a)) :
    Lasts (items.mapM f) := composes.mapM each

theorem andThen {x y : Eval Completion} (first : Lasts x) (next : Lasts y) :
    Lasts (do
      match ← x with
      | .normal => y
      | .returning value => return .returning value) := composes.andThen first next

theorem sequence {step : Stmt → Eval Completion} (each : ∀ s, Lasts (step s))
    (body : List Stmt) : Lasts (sequence step body) := composes.sequence each body

/-! ## Calls -/

theorem applyFunction {run : List Stmt → Nat → Eval Completion} (h : ∀ body s, Lasts (run body s))
    (f : Function) (arguments : List Value) : Lasts (applyFunction run f arguments) := by
  refine (openScope _).bind fun scope => (forM fun _ => .define _ _ _).bind fun _ =>
    (h _ _).bind fun completion => ?_
  cases completion with
  | normal => exact .pure _
  | returning value => exact .pure _

theorem consult (context : Context) (f : Native) (arguments : List Value) :
    Lasts (consult context f arguments) := fun _ =>
  ⟨⟨_, Array.toList_appendList.symm⟩, rfl, Nat.le_refl _, fun _ => rfl, Nat.le_refl _,
    Nat.le_succ _⟩

theorem applyNative (context : Context) (f : Native) (arguments : List Value) :
    Lasts (applyNative context f arguments) := by
  refine (consult context f arguments).bind fun answer => ?_
  cases answer with
  | returns result => exact .pure _
  | raises e => exact .throw _
  | exhausts => exact .throw _

theorem unwrap (paren : Token) (result : Returned) : Lasts (unwrap paren result) := by
  cases result with
  | value value => exact .pure _
  | alien typeName => exact .fail _ _

theorem invoke (context : Context) {run : List Stmt → Nat → Eval Completion}
    (h : ∀ body s, Lasts (run body s)) (callee : Value) (paren : Token) (arguments : List Value) :
    Lasts (invoke context run callee paren arguments) := by
  cases callee with
  | function f => exact ((applyFunction h f arguments).guarded paren).active
  | native f =>
      exact ((applyNative context f arguments).guarded paren).active.bind fun _ => .unwrap _ _
  | nil | bool | number | string => exact .fail _ _

theorem call (context : Context) {run : List Stmt → Nat → Eval Completion}
    (h : ∀ body s, Lasts (run body s)) (callee : Value) (paren : Token) (arguments : List Value) :
    Lasts (call context run callee paren arguments) := by
  intro m
  have inside := invoke context h callee paren arguments m
  rw [after, call_eq]
  cases callee.arity? with
  | none => exact .refl m
  | some arity =>
      dsimp only
      by_cases count : arguments.length ≠ arity
      · rw [if_pos count]
        exact .refl m
      · by_cases full : context.limit ≤ m.depth
        · rw [if_neg count, if_pos full]
          exact .refl m
        · rw [if_neg count, if_neg full]
          exact inside

theorem closed (context : Context) : Closed context @Lasts :=
  { composes with
    outOfFuel := throw _, ofExcept := ofExcept, printLine := printLine, openScope := openScope,
    define := define, lookup := lookup, assign := assign, declare := declare,
    call := fun h => call context h }

end Eval.Lasts

theorem evaluation_lasts (context : Context) (fuel : Nat) :
    (∀ e scope, (evaluate context fuel e scope).Lasts) ∧
      ∀ s scope, (execute context fuel s scope).Lasts :=
  (Eval.Lasts.closed context).evaluation fuel

theorem program_lasts (context : Context) (fuel : Nat) (statements : List Stmt) :
    (Eval.program context fuel statements).Lasts :=
  .forM fun s => ((evaluation_lasts context fuel).2 s _).map _

theorem body_lasts (context : Context) (fuel : Nat) (statements : List Stmt) (scope : Nat) :
    (Eval.body context fuel statements scope).Lasts :=
  Eval.Lasts.sequence (fun s => (evaluation_lasts context fuel).2 s scope) statements

def Eval.Contained (x : Eval α) : Prop := ∀ m m' : Machine, x m ≠ .error .exhausted m'

namespace Eval.Contained

theorem pure (a : α) : Contained (Pure.pure a) := nofun

theorem bind {x : Eval α} {f : α → Eval β} (first : Contained x) (next : ∀ a, Contained (f a)) :
    Contained (x >>= f) := by
  intro m m' ends
  rcases bind_error.mp ends with ends | ⟨a, m₁, -, ends⟩
  · exact first m m' ends
  · exact next a m₁ m' ends

theorem fail (cause : RuntimeError.Cause) (token : Token) : Contained (fail cause token : Eval α) :=
  nofun

theorem lookup (scope : Nat) (name : Token) : Contained (lookup scope name) := by
  intro m m' ends
  rw [lookup_eq] at ends
  cases found : m.store.resolve? scope name.lexeme <;> rw [found] at ends <;> cases ends

theorem assign (scope : Nat) (name : Token) (value : Value) :
    Contained (assign scope name value) := by
  intro m m' ends
  rw [assign_eq] at ends
  cases found : m.store.resolve? scope name.lexeme <;> rw [found] at ends <;> cases ends

theorem active {inside : Eval α} (h : Contained inside) : Contained (active inside) := by
  intro m m' ends
  unfold Eval.active at ends
  split at ends
  · cases ends
  · rename_i run
    cases ends
    exact h _ _ run

theorem guarded (paren : Token) (inside : Eval α) : Contained (guarded paren inside) := by
  intro m m' ends
  rw [guarded_eq] at ends
  split at ends
  · cases ends
  · rename_i exhausted
    exact exhausted _ ends

theorem unwrap (paren : Token) (result : Returned) : Contained (unwrap paren result) := by
  cases result with
  | value value => exact pure _
  | alien typeName => exact fail _ _

theorem call (context : Context) (run : List Stmt → Nat → Eval Completion) (callee : Value)
    (paren : Token) (arguments : List Value) : Contained (call context run callee paren arguments) := by
  have inside : Contained (invoke context run callee paren arguments) := by
    cases callee with
    | function f => exact (guarded paren _).active
    | native f => exact (guarded paren _).active.bind fun _ => unwrap _ _
    | nil | bool | number | string => exact fail _ _
  intro m m' ends
  rw [call_eq] at ends
  split at ends
  · cases ends
  · split at ends
    · cases ends
    split at ends
    · cases ends
    exact inside m m' ends

theorem closed (context : Context) : Closed context @Contained where
  pure := pure
  bind := bind
  outOfFuel := nofun
  ofExcept result := by cases result <;> nofun
  printLine _ := nofun
  openScope _ := nofun
  define _ _ _ := nofun
  lookup := lookup
  assign := assign
  declare _ _ _ _ := nofun
  call _ := call context _

end Eval.Contained

/-- Only a built-in function can exhaust the stack of the host, and every call is prepared for it. -/
theorem evaluation_contained (context : Context) (fuel : Nat) :
    (∀ e scope, (evaluate context fuel e scope).Contained) ∧
      ∀ s scope, (execute context fuel s scope).Contained :=
  (Eval.Contained.closed context).evaluation fuel

theorem body_contained (context : Context) (fuel : Nat) (statements : List Stmt) (scope : Nat) :
    (Eval.body context fuel statements scope).Contained :=
  (Eval.Contained.closed context).sequence (fun s => (evaluation_contained context fuel).2 s scope)
    statements

theorem program_contained (context : Context) (fuel : Nat) (statements : List Stmt) :
    (Eval.program context fuel statements).Contained :=
  (Eval.Contained.closed context).forM fun s m m' ends =>
    (evaluation_contained context fuel).2 s _ m m' (discard_error.mp ends)

end Lox
