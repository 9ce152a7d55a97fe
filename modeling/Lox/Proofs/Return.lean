import Lox.Proofs.Evaluation.Unwinding
import Lox.Proofs.Supported

namespace Lox

namespace Unwinding

theorem jumping_returnless {s : Stmt} (returnless : s.Returnless) (c : Context) (fuel scope : Nat)
    (m : Machine) :
    jumping (Lox.execute c fuel s scope) m =
      plain (discard (Lox.execute c fuel s scope)) m := by
  simp only [jumping, plain, bind, EStateM.bind, discard, Functor.discard, Functor.mapConst,
    Function.comp, EStateM.map]
  cases run : Lox.execute c fuel s scope m with
  | ok completion m' =>
      obtain rfl := returnless.normal run
      rfl
  | error stop m' => rfl

theorem program_eq {body : List Stmt} (returnless : ∀ s ∈ body, s.Returnless) (c : Context)
    (fuel : Nat) : program c fuel body = plain (Eval.program c fuel body) := by
  induction body with
  | nil => rfl
  | cons s body ih =>
      obtain ⟨first, others⟩ := List.forall_mem_cons.mp returnless
      have head : execute c fuel s Interpreter.globals =
          plain (discard (Lox.execute c fuel s Interpreter.globals)) := by
        rw [(evaluation_eq c fuel).2]
        exact funext (jumping_returnless first c fuel Interpreter.globals)
      change (do execute c fuel s Interpreter.globals; program c fuel body) =
        plain (do
          discard (Lox.execute c fuel s Interpreter.globals)
          Eval.program c fuel body)
      rw [plain_bind, head, ih others]

end Unwinding

variable {c : Context} {a b : Moment} {n fuel : Nat} {v : Value} {m m' : Machine}

/-- The statement or the body that is to be run ends in a `return`. -/
def Moment.Returns (c : Context) (a : Moment) (v : Value) (m : Machine) : Prop :=
  match a.task with
  | .body statements scope => Eval.body c a.fuel statements scope a.machine = .ok (.returning v) m
  | .statement s scope => execute c a.fuel s scope a.machine = .ok (.returning v) m
  | _ => False

theorem Starts.not_program (start : Starts c a b n) : ∀ body, b.task ≠ .program body := by
  cases start <;> exact nofun

theorem Starts.returns (start : Starts c a b 0) (inside : ∀ body, a.task ≠ .program body)
    (returns : b.Returns c v m) : a.Returns c v m := by
  cases start with
  | top => exact absurd rfl (inside _)
  | item done =>
      change Eval.body c _ (_ ++ _) _ _ = _
      rw [Eval.body_append, bind_eq done]
      exact bind_ok.mpr ⟨_, _, returns, rfl⟩
  | block => exact returns
  | whenTrue tested truthy =>
      change execute c _ _ _ _ = _
      rw [execute_ifElse, bind_eq tested, if_pos truthy]
      exact returns
  | whenFalse tested falsy =>
      change execute c _ _ _ _ = _
      rw [execute_ifElse, bind_eq tested, if_neg (by simp [falsy])]
      exact returns
  | round tested truthy =>
      change execute c _ _ _ _ = _
      rw [execute, bind_eq tested, if_pos truthy]
      exact bind_ok.mpr ⟨_, _, returns, rfl⟩
  | again tested truthy done =>
      change execute c _ _ _ _ = _
      rw [execute, bind_eq tested, if_pos truthy, bind_eq done]
      exact returns
  | value | operand | right | attempt => exact returns.elim

theorem Reaches.returns (reaches : Reaches c a b n) (same : n = 0)
    (inside : ∀ body, a.task ≠ .program body) (returns : b.Returns c v m) :
    a.Returns c v m := by
  induction reaches with
  | here => exact returns
  | step first rest ih =>
      obtain ⟨rfl, rfl⟩ := Nat.add_eq_zero_iff.mp same
      exact first.returns inside (ih rfl first.not_program returns)

theorem call_returns {callee : Value} {paren : Token} {arguments : List Value}
    (reaches : Reaches c ⟨.call callee paren arguments, fuel, m⟩ b n) (same : n = 1)
    (returns : b.Returns c v m') :
    Eval.call c (Eval.body c fuel) callee paren arguments m =
      .ok v { m' with depth := m'.depth - 1 } := by
  cases reaches with
  | here => cases same
  | step first rest =>
      cases first with
      | enter count room entered =>
          have body := rest.returns (by omega) nofun returns
          have full : ¬ c.limit ≤ _ := Int.not_le.mpr room
          change Eval.body c _ _ _ _ = _ at body
          rw [Eval.call_eq]
          simp only [Value.arity?, count, ne_eq, not_true_eq_false, if_false, full, Eval.invoke]
          simp only [Eval.active, Eval.guarded_eq, Eval.applyFunction_eq, bind_eq entered,
            bind_eq body]
          rfl

/-- Accepted programs run, from every machine, as they do where a `return` gives up all work of the
innermost active call. Once it was executed, however deep inside of a body, nothing more is done in
this activation. -/
theorem return_unwinds :
    (∀ depth source body, Program.compile depth source = .ok body → ∀ c fuel m,
        Unwinding.program c fuel body m = Unwinding.plain (Eval.program c fuel body) m) ∧
      (∀ c fuel scope,
        (∀ e, Unwinding.evaluate c fuel e scope = Unwinding.plain (evaluate c fuel e scope)) ∧
          ∀ s, Unwinding.execute c fuel s scope = Unwinding.jumping (execute c fuel s scope)) ∧
      ∀ c fuel callee paren arguments m keyword value scope n m₁ v m₂,
        Reaches c ⟨.call callee paren arguments, fuel, m⟩
            ⟨.statement (.returnStmt keyword value) scope, n, m₁⟩ 1 →
          execute c n (.returnStmt keyword value) scope m₁ = .ok (.returning v) m₂ →
          Eval.call c (Eval.body c fuel) callee paren arguments m =
            .ok v { m₂ with depth := m₂.depth - 1 } := by
  refine ⟨fun depth source body compiled c fuel m => ?_, fun c fuel scope => ?_, ?_⟩
  · obtain ⟨-, derived⟩ := Program.compile_eq_ok.mp compiled
    rw [Unwinding.program_eq derived.returnless]
  · obtain ⟨expressions, statements⟩ := Unwinding.evaluation_eq c fuel
    exact ⟨fun e => expressions e scope, fun s => statements s scope⟩
  · intro c fuel callee paren arguments m keyword value scope n m₁ v m₂ reaches returns
    exact call_returns reaches rfl returns

theorem return_unwinds_block :
    let f : Token := ⟨.identifier, "f", .nil, 1⟩
    let word : Token := ⟨.returnWord, "return", .nil, 1⟩
    let paren : Token := ⟨.rightParen, ")", .nil, 1⟩
    let returns : Stmt := .returnStmt word (some (.variable f))
    let body : List Stmt := [.block [returns], .print (.literal .nil)]
    let whole : List Stmt := [.funDecl f [] body, .print (.call (.variable f) paren [])]
    let c : Context := { Host.doubling 100 with limit := 10 }
    let start : Machine := { store := (Store.push {} none).define 0 "f" (.bool true) }
    Program.compile 100 "fun f() \x7b \x7b return f; \x7d print nil; \x7d print f();" = .ok whole ∧
      (∃ m, Unwinding.program c 10 whole start = .ok () m ∧ m.output = #["<fn f>"]) ∧
      ∃ m, Eval.call c (Eval.body c 10) (.function ⟨.declared 0, f, [], body, 0⟩) paren [] start =
          .ok (.bool true) m ∧ m.output = #[] := by
  intro f word paren returns body whole c start
  have compiled :
      Program.compile 100 "fun f() \x7b \x7b return f; \x7d print nil; \x7d print f();" = .ok whole :=
    rfl
  refine ⟨compiled, ?_, ?_⟩
  · rw [return_unwinds.1 100 _ whole compiled c 10 start]
    exact ⟨_, rfl, rfl⟩
  · let inside : Machine := { start with store := start.store.push (some 0), depth := 1 }
    let deeper : Machine := { inside with store := inside.store.push (some 1) }
    have entered : Starts c ⟨.call (.function ⟨.declared 0, f, [], body, 0⟩) paren [], 10, start⟩
        ⟨.body body 1, 10, inside⟩ 1 := .enter rfl (by decide) rfl
    have first : Starts c ⟨.body body 1, 10, inside⟩
        ⟨.statement (.block [returns]) 1, 10, inside⟩ 0 :=
      @Starts.item c 10 [] _ _ 1 inside inside rfl
    have block : Starts c ⟨.statement (.block [returns]) 1, 10, inside⟩
        ⟨.body [returns] 2, 9, deeper⟩ 0 := .block
    have only : Starts c ⟨.body [returns] 2, 9, deeper⟩ ⟨.statement returns 2, 9, deeper⟩ 0 :=
      @Starts.item c 9 [] _ _ 2 deeper deeper rfl
    have reaches := Reaches.step entered (.step first (.step block (.step only .here)))
    exact ⟨_, return_unwinds.2.2 c 10 _ paren [] start word _ 2 9 deeper _ _ reaches rfl, rfl⟩

end Lox
