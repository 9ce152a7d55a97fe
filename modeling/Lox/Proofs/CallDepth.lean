import Lox.Proofs.Session.Code

namespace Lox

def Eval.inside (c : Context) (run : List Stmt → Nat → Eval Completion) (callee : Value)
    (paren : Token) (arguments : List Value) : Eval Returned :=
  match callee with
  | .function f => .value <$> applyFunction run f arguments
  | .native f => applyNative c f arguments
  | _ => fail .notCallable paren

/-- The machines that work goes through, each with the number of calls that are active then: at the
beginning and at the end of all that happens in its course, and inside of each call, before
anything of it is done and when all of it is done. -/
inductive Passes (c : Context) (a : Moment) : Machine → (active : Nat) → Prop
  | begins {b n} (reaches : Reaches c a b n) : Passes c a b.machine n
  | ends {b n} (reaches : Reaches c a b n) : Passes c a (final (b.run c)) n
  | enters {callee paren fuel m n} {arguments : List Value}
      (reaches : Reaches c a ⟨.call callee paren arguments, fuel, m⟩ n)
      (arity : callee.arity? = some arguments.length) (room : m.depth < c.limit) :
      Passes c a { m with depth := m.depth + 1 } (n + 1)
  | leaves {callee paren fuel m n} {arguments : List Value}
      (reaches : Reaches c a ⟨.call callee paren arguments, fuel, m⟩ n)
      (arity : callee.arity? = some arguments.length) (room : m.depth < c.limit) :
      Passes c a ((Eval.inside c (Eval.body c fuel) callee paren arguments).after
        { m with depth := m.depth + 1 }) (n + 1)

/-- The interpreter runs texts, and while one is run so many calls are active at some moment. -/
def Interpreter.Nests (i : Interpreter) (n : Nat) : Prop :=
  Settings.frameBudget i.context.limit ≤ Settings.maxFrameBudget ∧
    ∃ source task fuel m, Program.Means i.context.nesting source task ∧
      Passes i.context ⟨task, fuel, i.machine.idle⟩ m n

variable {c : Context} {a b : Moment} {n fuel scope : Nat} {m : Machine}

theorem Task.lasts (t : Task) (c : Context) (fuel : Nat) : (t.run c fuel).Lasts := by
  cases t with
  | program statements => exact program_lasts c fuel statements
  | body statements scope => exact (body_lasts c fuel statements scope).discard
  | statement s scope => exact ((evaluation_lasts c fuel).2 s scope).discard
  | expression e scope => exact ((evaluation_lasts c fuel).1 e scope).discard
  | call callee paren arguments =>
      exact (Eval.Lasts.call c (body_lasts c fuel) callee paren arguments).discard

theorem Eval.inside_lasts (c : Context) (fuel : Nat) (callee : Value) (paren : Token)
    (arguments : List Value) : (inside c (body c fuel) callee paren arguments).Lasts := by
  cases callee with
  | function f => exact (Lasts.applyFunction (body_lasts c fuel) f arguments).map _
  | native f => exact .applyNative c f arguments
  | nil | bool | number | string => exact .fail _ _

theorem Eval.active_guarded_value (paren : Token) (inside : Eval Value) :
    (do unwrap paren (← active (guarded paren (Returned.value <$> inside)))) =
      active (guarded paren inside) := by
  funext m
  simp only [bind, EStateM.bind, active, guarded_eq, Functor.map, EStateM.map]
  cases inside { m with depth := m.depth + 1 } with
  | ok value m' => rfl
  | error stop m' => cases stop <;> rfl

theorem Eval.call_eq_active (run : List Stmt → Nat → Eval Completion) {callee : Value}
    (paren : Token) {arguments : List Value} (arity : callee.arity? = some arguments.length)
    (room : m.depth < c.limit) :
    call c run callee paren arguments m =
      (do unwrap paren (← active (guarded paren (inside c run callee paren arguments)))) m := by
  rw [call_eq, arity]
  dsimp only
  rw [if_neg (not_not.mpr rfl), if_neg (not_le.mpr room)]
  cases callee with
  | function f => exact congrFun (active_guarded_value paren (applyFunction run f arguments)).symm m
  | native f => rfl
  | nil | bool | number | string => cases arity

theorem Eval.active_guarded {α : Type} (paren : Token) {inside : Eval α}
    (restores : ∀ m, (inside.after m).depth = m.depth) (m : Machine) :
    ((active (guarded paren inside)).after m).depth = m.depth ∧
      ∀ m', inside { m with depth := m.depth + 1 } = .error .exhausted m' →
        active (guarded paren inside) m =
          .error (.error ⟨.stackOverflow, paren⟩) { m' with depth := m.depth } := by
  have within := restores { m with depth := m.depth + 1 }
  simp only [after, active, guarded_eq] at within ⊢
  cases run : inside { m with depth := m.depth + 1 } with
  | ok a m' =>
      rw [run] at within
      exact ⟨congrArg (· - 1) within, fun _ exhausted => by cases exhausted⟩
  | error stop m' =>
      rw [run] at within
      have back : m'.depth - 1 = m.depth := congrArg (· - 1) within
      cases stop with
      | exhausted =>
          refine ⟨back, ?_⟩
          rintro _ ⟨⟩
          change EStateM.Result.error _ { m' with depth := m'.depth - 1 } = _
          rw [back]
      | error | outOfFuel => exact ⟨back, fun _ exhausted => by cases exhausted⟩

theorem Passes.depth (h : Passes c a m n) : m.depth = a.machine.depth + n := by
  cases h with
  | begins reaches => exact reaches.depth
  | @ends b n reaches => exact ((b.task.lasts c b.fuel) b.machine).depth.trans reaches.depth
  | enters reaches => rw [reaches.depth, Nat.add_assoc]
  | leaves reaches =>
      rw [(Eval.inside_lasts ..).depth]
      exact (congrArg (· + 1) reaches.depth).trans (Nat.add_assoc ..)

theorem Starts.le_limit (h : Starts c a b n) :
    n = 0 ∨ ((a.machine.depth + n : Nat) : Int) ≤ c.limit := by
  cases h with
  | @enter fuel f paren vs m scope m' count room entered => exact .inr (by push_cast; omega)
  | top | item | value | block | whenTrue | whenFalse | round | again | operand | right
  | attempt => exact .inl rfl

theorem Reaches.le_limit (h : Reaches c a b n) :
    (b.machine.depth : Int) ≤ max (a.machine.depth : Int) c.limit := by
  induction h with
  | here => exact le_max_left ..
  | @step a b d n k first rest ih =>
      have depth := first.depth
      rcases first.le_limit with rfl | room
      · rw [depth] at ih
        exact ih
      · exact ih.trans (max_le (depth ▸ room.trans (le_max_right ..)) (le_max_right ..))

theorem Passes.le_limit (h : Passes c a m n) :
    (m.depth : Int) ≤ max (a.machine.depth : Int) c.limit := by
  cases h with
  | begins reaches => exact reaches.le_limit
  | @ends b n reaches =>
      have depth : (final (b.run c)).depth = b.machine.depth :=
        (b.task.lasts c b.fuel b.machine).depth
      rw [depth]
      exact reaches.le_limit
  | enters reaches arity room =>
      exact le_max_of_le_right (by push_cast; omega)
  | leaves reaches arity room =>
      rw [(Eval.inside_lasts ..).depth]
      exact le_max_of_le_right (by push_cast; omega)

structure Interpreter.Ready (c : Context) (i : Interpreter) : Prop where
  context : i.context = c
  depth : i.machine.depth = 0
  globals : globals < i.machine.store.size

namespace Interpreter

theorem new_ready (c : Context) : (Interpreter.new c).Ready c := by
  have size : ∀ (fs : List Native) (σ : Store),
      (fs.foldl (fun σ f => σ.define globals f.name (.native f)) σ).size = σ.size := by
    intro fs
    induction fs with
    | nil => exact fun σ => rfl
    | cons f fs ih => exact fun σ => (ih _).trans (Store.size_define ..)
  exact ⟨rfl, rfl, (size c.natives _).symm ▸ Nat.zero_lt_one⟩

theorem Ran.ready {start i : Interpreter} {past : List String} (h : start.Ran past i)
    (ready : start.Ready c) : i.Ready c :=
  ⟨h.leads.context.trans ready.context, h.leads.depth ready.depth,
    Nat.lt_of_lt_of_le ready.globals h.leads.size⟩

end Interpreter

section
variable (f paren : Token)

def Stmt.callOf : Stmt := .expression (.call (.variable f) paren [])

def Function.recursive (id : FunctionId) : Function :=
  ⟨id, f, [], [Stmt.callOf f paren], Interpreter.globals⟩

end

def Machine.called (m : Machine) : Machine :=
  { m with depth := m.depth + 1, store := m.store.push (some Interpreter.globals) }

theorem Store.resolve?_globals {σ : Store} {s : Scope} {name : String} {v : Value}
    (found : σ.scopes[Interpreter.globals]? = some s) (bound : s.get? name = some v) :
    σ.resolve? Interpreter.globals name = some (Interpreter.globals, v) := by
  rw [Store.resolve?, resolveWithin, found]
  dsimp only
  rw [bound]

theorem Store.resolve?_push_globals {σ : Store} {s : Scope} {name : String} {v : Value}
    (found : σ.scopes[Interpreter.globals]? = some s) (bound : s.get? name = some v) :
    (σ.push (some Interpreter.globals)).resolve? σ.size name = some (Interpreter.globals, v) := by
  have inside : Interpreter.globals < σ.size := lt_size found
  obtain ⟨k, size⟩ : ∃ k, σ.size = k + 1 := Nat.exists_eq_succ_of_ne_zero (Nat.ne_of_gt inside)
  have old := scopes_push_of_lt inside (some Interpreter.globals)
  have new : (σ.push (some Interpreter.globals)).scopes[σ.size]? =
      some { enclosing := some Interpreter.globals } := by
    rw [scopes_push, if_pos rfl]
  rw [Store.resolve?, resolveWithin, new]
  dsimp only [Scope.get?, List.lookup]
  rw [size, resolveWithin, old, found]
  dsimp only
  rw [bound]

theorem Reaches.recursion_step {f paren : Token} {id : FunctionId}
    (means : m.store.resolve? scope f.lexeme =
      some (Interpreter.globals, .function (.recursive f paren id)))
    (room : m.depth < c.limit) {b : Moment}
    (rest : Reaches c ⟨.statement (.callOf f paren) m.store.size, fuel + 1, m.called⟩ b n) :
    Reaches c ⟨.statement (.callOf f paren) scope, fuel + 3, m⟩ b (n + 1) := by
  have callee : [Expr.variable f].mapM (fun e => evaluate c (fuel + 1) e scope) m =
      .ok [.function (.recursive f paren id)] m := by
    rw [List.mapM_cons]
    refine bind_ok.mpr ⟨_, m, ?_, rfl⟩
    rw [evaluate, Eval.lookup_eq, means]
  have value : Starts c ⟨.statement (.callOf f paren) scope, fuel + 3, m⟩
      ⟨.expression (.call (.variable f) paren []) scope, fuel + 2, m⟩ 0 := .value rfl
  have attempt : Starts c ⟨.expression (.call (.variable f) paren []) scope, fuel + 2, m⟩
      ⟨.call (.function (.recursive f paren id)) paren [], fuel + 1, m⟩ 0 := .attempt callee
  have enter : Starts c ⟨.call (.function (.recursive f paren id)) paren [], fuel + 1, m⟩
      ⟨.body [.callOf f paren] m.store.size, fuel + 1, m.called⟩ 1 := .enter rfl room rfl
  have item : Starts c ⟨.body [.callOf f paren] m.store.size, fuel + 1, m.called⟩
      ⟨.statement (.callOf f paren) m.store.size, fuel + 1, m.called⟩ 0 :=
    @Starts.item c (fuel + 1) [] (.callOf f paren) [] m.store.size _ _ rfl
  have all := Reaches.step value (.step attempt (.step enter (.step item rest)))
  rwa [show 0 + (0 + (1 + (0 + n))) = n + 1 by omega] at all

theorem Reaches.recursion {f paren : Token} {id : FunctionId} {s : Scope}
    (means : m.store.resolve? scope f.lexeme =
      some (Interpreter.globals, .function (.recursive f paren id)))
    (found : m.store.scopes[Interpreter.globals]? = some s)
    (bound : s.get? f.lexeme = some (.function (.recursive f paren id)))
    (room : ((m.depth + n : Nat) : Int) ≤ c.limit ∨ n = 0) (long : 2 * n + 1 ≤ fuel) :
    ∃ b, Reaches c ⟨.statement (.callOf f paren) scope, fuel, m⟩ b n := by
  induction n generalizing scope m fuel with
  | zero => exact ⟨_, .here⟩
  | succ n ih =>
      have room := room.resolve_right (Nat.succ_ne_zero n)
      obtain ⟨k, rfl⟩ : ∃ k, fuel = k + 3 := ⟨fuel - 3, by omega⟩
      have older := Store.scopes_push_of_lt (Store.lt_size found) (some Interpreter.globals)
      have within : ((m.called.depth + n : Nat) : Int) ≤ c.limit ∨ n = 0 := by
        simp only [Machine.called]
        omega
      have enough : 2 * n + 1 ≤ k + 1 := by omega
      obtain ⟨b, reaches⟩ :=
        ih (Store.resolve?_push_globals found bound) (older.trans found) within enough
      exact ⟨b, .recursion_step means (by omega) reaches⟩

theorem Interpreter.Ready.exists_passes {i : Interpreter} (ready : i.Ready c)
    (deep : 13 ≤ c.nesting) (le : (n : Int) ≤ max 0 c.limit) :
    ∃ source task fuel m, Program.Means c.nesting source task ∧
      Passes c ⟨task, fuel, i.machine.idle⟩ m n := by
  let f : Token := ⟨.identifier, "f", .nil, 1⟩
  let paren : Token := ⟨.rightParen, ")", .nil, 1⟩
  let g : Function := .recursive f paren (.declared i.machine.declared)
  let σ := i.machine.store.define Interpreter.globals "f" (.function g)
  let m : Machine := { i.machine with declared := i.machine.declared + 1, depth := 0, store := σ }
  have compiled : Program.compile c.nesting "fun f() \x7b f(); \x7d f();" =
      .ok [.funDecl f [] [.callOf f paren], .callOf f paren] := by
    obtain ⟨k, nesting⟩ := Nat.exists_eq_add_of_le' deep
    rw [nesting]
    rfl
  obtain ⟨s, there⟩ := Store.getElem?_of_lt ready.globals
  have found : σ.scopes[Interpreter.globals]? = some (s.put "f" (.function g)) := by
    rw [Store.scopes_define, if_pos rfl, there]
    rfl
  have bound : (s.put "f" (.function g)).get? "f" = some (.function g) := by
    rw [Scope.get?_put, if_pos rfl]
  have room : ((m.depth + n : Nat) : Int) ≤ c.limit ∨ n = 0 := by
    simp only [m]
    omega
  obtain ⟨b, reaches⟩ : ∃ b, Reaches c ⟨.statement (.callOf f paren) Interpreter.globals, 2 * n + 1,
      m⟩ b n :=
    Reaches.recursion (Store.resolve?_globals found bound) found bound room le_rfl
  have start : Starts c ⟨.program [.funDecl f [] [.callOf f paren], .callOf f paren], 2 * n + 1,
      i.machine.idle⟩ ⟨.statement (.callOf f paren) Interpreter.globals, 2 * n + 1, m⟩ 0 :=
    @Starts.top c _ [.funDecl f [] [.callOf f paren]] (.callOf f paren) [] _ _ rfl
  have all := Reaches.step start reaches
  rw [Nat.zero_add] at all
  exact ⟨_, _, 2 * n + 1, b.machine, .statements compiled, .begins all⟩

theorem Interpreter.Ready.nests_iff {i : Interpreter} (ready : i.Ready c) (deep : 13 ≤ c.nesting)
    (n : Nat) :
    i.Nests n ↔
      Settings.frameBudget c.limit ≤ Settings.maxFrameBudget ∧ (n : Int) ≤ max 0 c.limit := by
  unfold Nests
  rw [ready.context]
  refine and_congr_right fun _ => ⟨?_, ready.exists_passes deep⟩
  rintro ⟨source, task, fuel, m, -, passes⟩
  have bound := passes.le_limit
  rw [passes.depth] at bound
  simpa [Machine.idle] using bound

/-- However work ends, the number of active calls is the same as before, and at every moment of it
the number is exact and within the limit. After any texts a new one can nest as many calls as on a
new interpreter, if texts may be nested deep enough for a recursive function at all. -/
theorem call_depth_exact :
    (∀ c fuel m, (∀ e scope, ((evaluate c fuel e scope).after m).depth = m.depth) ∧
        (∀ s scope, ((execute c fuel s scope).after m).depth = m.depth) ∧
        ∀ callee paren arguments,
          ((Eval.call c (Eval.body c fuel) callee paren arguments).after m).depth = m.depth) ∧
      (∀ c run callee paren arguments (m : Machine), callee.arity? = some arguments.length →
        (m.depth : Int) < c.limit → Eval.call c run callee paren arguments m =
          (do Eval.unwrap paren (← Eval.active (Eval.guarded paren
            (Eval.inside c run callee paren arguments)))) m) ∧
      (∀ {α : Type} paren (inside : Eval α), (∀ m, (inside.after m).depth = m.depth) →
        ∀ m, ((Eval.active (Eval.guarded paren inside)).after m).depth = m.depth ∧
          ∀ m', inside { m with depth := m.depth + 1 } = .error .exhausted m' →
            Eval.active (Eval.guarded paren inside) m =
              .error (.error ⟨.stackOverflow, paren⟩) { m' with depth := m.depth }) ∧
      (∀ c a m n, Passes c a m n → m.depth = a.machine.depth + n ∧
        (a.machine.depth = 0 → (m.depth : Int) ≤ max 0 c.limit)) ∧
      ∀ c past i, (Interpreter.new c).Ran past i →
        i.machine.depth = 0 ∧ i.context = c ∧ (13 ≤ c.nesting →
          ∀ n, (i.Nests n ↔ (Interpreter.new c).Nests n) ∧
            (i.Nests n ↔ Settings.frameBudget c.limit ≤ Settings.maxFrameBudget ∧
              (n : Int) ≤ max 0 c.limit)) := by
  refine ⟨fun c fuel m => ⟨fun e scope => ?_, fun s scope => ?_, fun callee paren arguments => ?_⟩,
    fun c run callee paren arguments m => Eval.call_eq_active run paren,
    fun paren inside => Eval.active_guarded paren, fun c a m n passes => ⟨passes.depth, fun idle => ?_⟩,
    ?_⟩
  · exact ((evaluation_lasts c fuel).1 e scope m).depth
  · exact ((evaluation_lasts c fuel).2 s scope m).depth
  · exact (Eval.Lasts.call c (body_lasts c fuel) callee paren arguments m).depth
  · have bound := passes.le_limit
    rw [idle] at bound
    exact bound
  · intro c past i ran
    have start := Interpreter.new_ready c
    have ready := ran.ready start
    refine ⟨ready.depth, ready.context, fun deep n => ⟨?_, ?_⟩⟩
    · rw [ready.nests_iff deep, start.nests_iff deep]
    · exact ready.nests_iff deep n

theorem call_depth_exact_overflow :
    let i := Interpreter.new { Host.doubling 100 with limit := 1 }
    let j := final (Session.run 9 "fun f() \x7b f(); \x7d f();" (final (Session.run 9 "twice(nil);" i)))
    j.printed = ["Only strings can be doubled.\n[line 0]", "Stack overflow.\n[line 1]"] ∧
      j.machine.depth = 0 ∧ j.Nests 1 := by
  intro i j
  have ran : i.Ran ["twice(nil);", "fun f() \x7b f(); \x7d f();"] j :=
    .next (.next .start (.run 9)) (.run 9)
  obtain ⟨depth, -, nests⟩ := call_depth_exact.2.2.2.2 _ _ _ ran
  exact ⟨by decide +kernel, depth, (nests (by decide) 1).2.mpr (by decide)⟩

end Lox
