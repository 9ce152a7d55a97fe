import Lox.Proofs.Evaluation.Names
import Lox.Proofs.Session.Code

namespace Lox

def Expr.Supported : Expr → Prop
  | .unary op _ => op.kind = .bang ∨ op.kind = .minus
  | .binary _ op _ => op.kind.isOperator = true ∧ op.kind ≠ .bang
  | .call _ _ arguments => arguments.length ≤ 255
  | _ => True

def Stmt.Supported : Stmt → Prop
  | .ifElse _ whenTrue whenFalse =>
      (∀ name, ¬ whenTrue.Declares name) ∧ ∀ s ∈ whenFalse, ∀ name, ¬ s.Declares name
  | .whileLoop _ body => ∀ name, ¬ body.Declares name
  | .funDecl _ params _ => params.length ≤ 255
  | _ => True

inductive Stmt.Returnless : Stmt → Prop
  | expression {e} : Returnless (.expression e)
  | print {e} : Returnless (.print e)
  | varDecl {name initializer} : Returnless (.varDecl name initializer)
  | block {body} (inside : ∀ s ∈ body, Returnless s) : Returnless (.block body)
  | ifElse {e s o} (whenTrue : Returnless s) (whenFalse : ∀ t ∈ o, Returnless t) :
      Returnless (.ifElse e s o)
  | whileLoop {e s} (round : Returnless s) : Returnless (.whileLoop e s)
  | funDecl {name params body} : Returnless (.funDecl name params body)

theorem Stmt.Returnless.forLoop {initializer : Option Stmt} {body : Stmt}
    (first : ∀ s ∈ initializer, s.Returnless) (round : body.Returnless)
    (condition increment : Option Expr) :
    (Stmt.forLoop initializer condition increment body).Returnless := by
  have loop : (Stmt.forLoop none condition increment body).Returnless := by
    cases increment with
    | none => exact .whileLoop round
    | some step =>
        exact .whileLoop (.block (List.forall_mem_cons.mpr
          ⟨round, List.forall_mem_singleton.mpr .expression⟩))
  cases initializer with
  | none => exact loop
  | some s => exact .block (List.forall_mem_cons.mpr
      ⟨first s rfl, List.forall_mem_singleton.mpr loop⟩)

theorem Stmt.Formed.supported {s : Stmt} (h : s.Formed) : s.Supported := by
  cases h with
  | varDecl => trivial
  | funDecl few => exact few
  | inert inert =>
      cases inert with
      | expression | print | block | returnStmt => trivial
      | ifThen whenTrue => exact ⟨whenTrue.declares_nothing, nofun⟩
      | ifElse whenTrue whenFalse =>
          refine ⟨whenTrue.declares_nothing, ?_⟩
          rintro t ⟨⟩
          exact whenFalse.declares_nothing
      | whileLoop body => exact body.declares_nothing

namespace Grammar
open Lox.Parser (Level Precedence)

theorem strength_not_bang {kind : Token.Kind} {p : Precedence} (strength : strength? kind = some p) :
    kind ≠ .bang := by
  rintro rfl
  cases strength

theorem Phrase.supported {n : Nat} {l : Level} {ts : List Token} {e : Expr} :
    Phrase n l ts e → e.Supported
  | .tighter _ inner => inner.supported
  | .operator _ strength _ _ => by
      unfold joined
      split
      · trivial
      · rename_i binary
        exact ⟨isOperator_of_strength? strength (fun or => binary (.inl or))
          fun and => binary (.inr and), strength_not_bang strength⟩
  | .unary sign _ => sign
  | .call _ _ _ few _ => few
  | .assign _ _ _ | .literal _ | .name _ | .grouping _ _ _ => trivial

theorem Written.supported {all : List Token} {x : Expr} (h : Written all x) : x.Supported := by
  cases h with
  | phrase h => exact h.supported
  | always => trivial

theorem Variable.returnless {n : Nat} {ts : List Token} {s : Stmt} (h : Variable n ts s) :
    s.Returnless := by
  cases h <;> exact .varDecl

theorem Initializer.returnless {n : Nat} {ts : List Token} {first : Option Stmt}
    (h : Initializer n ts first) : ∀ s ∈ first, s.Returnless := by
  rintro s ⟨⟩
  cases h with
  | declaration _ rest => exact rest.returnless
  | expression => exact .expression

mutual

theorem Declaration.returnless {n : Nat} {ts : List Token} {s : Stmt} :
    Declaration n false ts s → s.Returnless
  | .varDecl _ rest => rest.returnless
  | .funDecl _ _ _ _ _ _ _ _ _ => .funDecl
  | .statement plain => plain.returnless

theorem Statement.returnless {n : Nat} {c : Bool} {ts : List Token} {s : Stmt} :
    Statement n false c ts s → s.Returnless
  | .expression _ _ => .expression
  | .print _ _ _ => .print
  | .block _ inside _ => .block inside.returnless
  | .ifThen _ _ _ _ whenTrue => .ifElse whenTrue.returnless nofun
  | .ifElse _ _ _ _ whenTrue _ whenFalse =>
      .ifElse whenTrue.returnless fun _ same => Option.some.inj same ▸ whenFalse.returnless
  | .whileLoop _ _ _ _ body => .whileLoop body.returnless
  | .forLoop _ _ initializer _ _ _ _ body => .forLoop initializer.returnless body.returnless _ _

theorem Declarations.returnless {n : Nat} {ts : List Token} {body : List Stmt} :
    Declarations n false ts body → ∀ s ∈ body, s.Returnless
  | .nil => nofun
  | .cons head tail => List.forall_mem_cons.mpr ⟨head.returnless, tail.returnless⟩

end

end Grammar

section
variable {c : Context} {fuel scope : Nat} {m m' : Machine} {a : Completion}

theorem sequence_normal {step : Stmt → Eval Completion} {body : List Stmt}
    (each : ∀ s ∈ body, ∀ m a m', step s m = .ok a m' → a = .normal)
    (done : Eval.sequence step body m = .ok a m') : a = .normal := by
  induction body generalizing m with
  | nil => exact (pure_ok.mp done).1
  | cons s body ih =>
      obtain ⟨first, others⟩ := List.forall_mem_cons.mp each
      obtain ⟨b, m₁, head, rest⟩ := bind_ok.mp done
      obtain rfl := first m b m₁ head
      exact ih others rest

theorem Stmt.Returnless.normal {s : Stmt} (h : s.Returnless)
    (done : execute c fuel s scope m = .ok a m') : a = .normal := by
  induction fuel generalizing s scope m m' a with
  | zero => cases done
  | succ fuel ih =>
      cases h with
      | expression =>
          obtain ⟨_, _, -, rest⟩ := bind_ok.mp done
          exact (pure_ok.mp rest).1
      | print =>
          obtain ⟨_, _, -, rest⟩ := bind_ok.mp done
          obtain ⟨_, _, -, rest⟩ := bind_ok.mp rest
          exact (pure_ok.mp rest).1
      | @varDecl name initializer =>
          cases initializer with
          | none =>
              cases done
              rfl
          | some e =>
              obtain ⟨_, _, -, rest⟩ := bind_ok.mp done
              obtain ⟨_, _, -, rest⟩ := bind_ok.mp rest
              exact (pure_ok.mp rest).1
      | funDecl =>
          cases done
          rfl
      | block inside =>
          obtain ⟨_, _, -, rest⟩ := bind_ok.mp done
          exact sequence_normal (fun s member _ _ _ run => ih (inside s member) run) rest
      | @ifElse e s o whenTrue whenFalse =>
          rw [execute_ifElse] at done
          obtain ⟨_, _, -, rest⟩ := bind_ok.mp done
          split at rest
          · exact ih whenTrue rest
          · cases o with
            | none => exact (pure_ok.mp rest).1
            | some t => exact ih (whenFalse t rfl) rest
      | @whileLoop e s round =>
          rw [execute] at done
          obtain ⟨_, _, -, rest⟩ := bind_ok.mp done
          split at rest
          · obtain ⟨b, _, first, rest⟩ := bind_ok.mp rest
            obtain rfl := ih round first
            exact ih (.whileLoop round) rest
          · exact (pure_ok.mp rest).1

end

/-- Statements executed in the global scope one after the other, each to its normal end, up to the
last one or to the first that stops. -/
inductive Executes (c : Context) (fuel : Nat) :
    List Stmt → Machine → EStateM.Result Stop Machine Unit → Prop
  | done {m} : Executes c fuel [] m (.ok () m)
  | next {s body m m' r} (first : execute c fuel s Interpreter.globals m = .ok .normal m')
      (others : Executes c fuel body m' r) : Executes c fuel (s :: body) m r
  | stops {s body m stop m'} (fails : execute c fuel s Interpreter.globals m = .error stop m') :
      Executes c fuel (s :: body) m (.error stop m')

theorem executes_program {body : List Stmt} (returnless : ∀ s ∈ body, s.Returnless) (c : Context)
    (fuel : Nat) (m : Machine) : Executes c fuel body m (Eval.program c fuel body m) := by
  induction body generalizing m with
  | nil => exact .done
  | cons s body ih =>
      obtain ⟨first, others⟩ := List.forall_mem_cons.mp returnless
      change Executes c fuel _ m ((do
        discard (execute c fuel s Interpreter.globals)
        Eval.program c fuel body : Eval Unit) m)
      cases run : execute c fuel s Interpreter.globals m with
      | ok a m' =>
          obtain rfl := first.normal run
          rw [bind_eq (discard_eq run)]
          exact .next run (ih others m')
      | error stop m' =>
          rw [bind_error.mpr (.inl (discard_error.mpr run))]
          exact .stops run

theorem Value.applyUnary_supported {op : Token} {v : Value} {e : RuntimeError}
    (known : op.kind = .bang ∨ op.kind = .minus) (fails : applyUnary op v = .error e) :
    e.cause = .operandNotNumber := by
  unfold applyUnary at fails
  split at fails
  · cases fails
  · cases fails
    rfl
  · cases fails
  · rcases known with bang | minus <;> simp_all

theorem Value.applyBinary_supported {op : Token} {u v : Value} {e : RuntimeError}
    (known : op.kind.isOperator = true ∧ op.kind ≠ .bang) (fails : applyBinary op u v = .error e) :
    e.cause ≠ .unsupportedBinary := by
  unfold applyBinary at fails
  split at fails
  case h_1 | h_2 => cases fails
  case h_3 =>
    rw [add_error fails]
    exact nofun
  case h_4 | h_5 | h_6 =>
    rw [calculate_error fails]
    exact nofun
  case h_7 | h_8 | h_9 | h_10 =>
    rw [compare_error fails]
    exact nofun
  case h_11 =>
    obtain ⟨operator, other⟩ := known
    cases kind : op.kind <;> simp_all [Token.Kind.isOperator]

theorem Moment.Raises.supported {c : Context} {a : Moment} {e : RuntimeError}
    (raises : a.Raises c e)
    (calm : ∀ f calls arguments, (c.act f calls arguments).answer ≠ .raises e)
    (code : (Invariant.code Expr.Supported).task a.task) :
    e.cause ≠ .unsupportedUnary ∧ e.cause ≠ .unsupportedBinary := by
  cases raises with
  | unary _ fails =>
      rw [Value.applyUnary_supported (code.1 _ (Expr.mem_parts _)) fails]
      exact ⟨nofun, nofun⟩
  | binary _ _ fails =>
      refine ⟨?_, Value.applyBinary_supported (code.1 _ (Expr.mem_parts _)) fails⟩
      rcases Value.applyBinary_error fails with rfl | rfl | rfl <;> exact nofun
  | raised _ _ answer => exact absurd answer (calm _ _ _)
  | name | assign | notCallable | arity | full | exhausts | alien => exact ⟨nofun, nofun⟩

/-- Accepted texts ask for nothing that evaluation does not support. No statement of theirs returns,
so that they are executed one after the other up to the end or to the first error, and no run meets
an operator that is not known. -/
theorem accepted_supported :
    (∀ depth source body, Program.compile depth source = .ok body →
        (∀ s ∈ Stmt.allParts body, s.Supported) ∧
          (∀ x ∈ Stmt.allExpressions body, x.Supported) ∧
          (∀ s ∈ body, ∀ c fuel scope m v m', execute c fuel s scope m ≠ .ok (.returning v) m') ∧
          ∀ fuel i, ∃ r log, Executes i.context fuel body i.machine.idle r ∧
            Session.interpret fuel body i = Session.onMachine (fun _ _ => r) { i with log }) ∧
      ∀ c : Context, (c.Gives fun g => ∀ x ∈ Stmt.allExpressions g.body, x.Supported) →
        ∀ past i, (Interpreter.new c).Ran past i →
          (i.machine.store.Made fun g => ∀ x ∈ Stmt.allExpressions g.body, x.Supported) ∧
            ∀ {α : Type} {work : Session α} {source : String}, Session.Runs source work →
              ∀ e, (∀ f calls arguments, (c.act f calls arguments).answer ≠ .raises e) →
                ∀ j, work i = .error (.runtimeError e) j →
                  e.cause ≠ .unsupportedUnary ∧ e.cause ≠ .unsupportedBinary := by
  refine ⟨fun depth source body compiled => ?_, ?_⟩
  · obtain ⟨-, derived⟩ := Program.compile_eq_ok.mp compiled
    have returnless := derived.returnless
    refine ⟨fun s part => (derived.formed s part).supported,
      fun x part => (derived.written (fun _ => id) x part).supported, ?_, fun fuel i => ?_⟩
    · intro s member c fuel scope m v m' returns
      cases (returnless s member).normal returns
    · refine ⟨Eval.program i.context fuel body i.machine.idle,
        i.log.push (.interpreting body.length), executes_program returnless _ fuel _, ?_⟩
      rw [Session.interpret_eq]
      rfl
  · intro c gives past i ran
    have made : (Invariant.code Expr.Supported).store i.machine.store :=
      ran.code gives (Interpreter.new_made _ c) fun x ⟨_, _, contains⟩ => contains.written.supported
    refine ⟨made, fun {α work source} runs e calm j fails => ?_⟩
    rw [← show i.context = c from ran.leads.context] at gives calm
    obtain ⟨_, _, a, _, -, -, holds, raises⟩ :=
      runs.raises gives made (fun x contains => contains.written.supported) fails
    exact raises.supported calm holds.task

theorem accepted_supported_negation :
    let minus : Token := ⟨.minus, "-", .nil, 1⟩
    let c : Context := { Host.doubling 100 with limit := 10 }
    let i := Interpreter.new c
    (∃ r, Executes c 5 [.expression (.unary minus (.literal .nil))] i.machine.idle r) ∧
      ∃ e j, Session.run 5 "-nil;" i = .error (.runtimeError e) j ∧
        e.cause ≠ .unsupportedUnary := by
  intro minus c i
  have compiled : Program.compile 100 "-nil;" =
      .ok [.expression (.unary minus (.literal .nil))] := rfl
  obtain ⟨-, -, -, runs⟩ := accepted_supported.1 _ _ _ compiled
  obtain ⟨r, -, executes, -⟩ := runs 5 i
  obtain ⟨j, fails⟩ : ∃ j, Session.run 5 "-nil;" i =
      .error (.runtimeError ⟨.operandNotNumber, minus⟩) j := ⟨_, rfl⟩
  have calm : ∀ f calls arguments, (c.act f calls arguments).answer ≠
      .raises ⟨.operandNotNumber, minus⟩ := by
    intro f calls arguments raises
    change (Native.twiceBody calls arguments).answer = _ at raises
    unfold Native.twiceBody at raises
    split at raises <;> cases raises
  have cause := (accepted_supported.2 c (Host.doubling_gives 100 _) [] i .start).2 (.run 5) _ calm j
    fails
  exact ⟨⟨r, executes⟩, _, j, fails, cause.1⟩

end Lox
