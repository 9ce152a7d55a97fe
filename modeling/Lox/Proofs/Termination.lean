import Lox.Proofs.CallLimit
import Lox.Proofs.Termination.Settling

namespace Lox

/-- If the text is accepted, there is no loop in what it stands for. -/
def Program.LoopFree (source : String) : Prop :=
  ∀ depth body, compile depth source = .ok body → ∀ s ∈ body, s.LoopFree

def Token.BeginsLoop (t : Token) : Prop := t.kind = .whileWord ∨ t.kind = .forWord

instance (t : Token) : Decidable t.BeginsLoop := inferInstanceAs (Decidable (_ ∨ _))

namespace Grammar

theorem Variable.loopFree {n : Nat} {ts : List Token} {s : Stmt} (h : Variable n ts s) :
    s.LoopFree := by
  cases h <;> exact .varDecl

mutual

theorem Declaration.loopFree {n : Nat} {f : Bool} {ts : List Token} {s : Stmt} :
    Declaration n f ts s → (∀ t ∈ ts, ¬ t.BeginsLoop) → s.LoopFree
  | .varDecl _ rest, _ => rest.loopFree
  | .funDecl _ _ _ _ _ _ _ inside _, plain => by
      obtain ⟨⟨⟨-, -, -, -⟩, -, -, rest⟩, -⟩ : ((_ ∧ _ ∧ _ ∧ _) ∧ _ ∧ _ ∧ _) ∧ _ := by
        simpa only [List.forall_mem_append, List.forall_mem_cons] using plain
      exact .funDecl (inside.loopFree rest)
  | .statement statement, plain => statement.loopFree plain

theorem Statement.loopFree {n : Nat} {f c : Bool} {ts : List Token} {s : Stmt} :
    Statement n f c ts s → (∀ t ∈ ts, ¬ t.BeginsLoop) → s.LoopFree
  | .expression _ _, _ => .expression
  | .print _ _ _, _ => .print
  | .block _ inside _, plain => by
      obtain ⟨⟨-, rest⟩, -⟩ : (_ ∧ _) ∧ _ := by
        simpa only [List.forall_mem_append, List.forall_mem_cons] using plain
      exact .block (inside.loopFree rest)
  | .ifThen _ _ _ _ whenTrue, plain => by
      obtain ⟨-, -, first⟩ : _ ∧ _ ∧ _ := by
        simpa only [List.forall_mem_append, List.forall_mem_cons] using plain
      exact .ifElse (whenTrue.loopFree first) nofun
  | .ifElse _ _ _ _ whenTrue _ whenFalse, plain => by
      obtain ⟨⟨-, -, first⟩, -, second⟩ : (_ ∧ _ ∧ _) ∧ _ ∧ _ := by
        simpa only [List.forall_mem_append, List.forall_mem_cons] using plain
      exact .ifElse (whenTrue.loopFree first)
        fun _ same => Option.some.inj same ▸ whenFalse.loopFree second
  | .whileLoop whiles _ _ _ _, plain => absurd (.inl whiles) (plain _ (.head _))
  | .forLoop fors _ _ _ _ _ _ _, plain => absurd (.inr fors) (plain _ (.head _))
  | .returnStmt _ _ _, _ => .returnStmt

theorem Declarations.loopFree {n : Nat} {f : Bool} {ts : List Token} {body : List Stmt} :
    Declarations n f ts body → (∀ t ∈ ts, ¬ t.BeginsLoop) → ∀ s ∈ body, s.LoopFree
  | .nil, _ => nofun
  | .cons head tail, plain => by
      obtain ⟨first, rest⟩ := List.forall_mem_append.mp plain
      exact List.forall_mem_cons.mpr ⟨head.loopFree first, tail.loopFree rest⟩

end

end Grammar

theorem Program.loopFree_of_tokens {source : String}
    (plain : ∀ t ∈ (Scan.ofString source).tokens, ¬ t.BeginsLoop) : LoopFree source :=
  fun _ _ compiled => (compile_eq_ok.mp compiled).2.loopFree plain

theorem Eval.Settled.made {α : Type} {c : Context} {room : Nat} {rel : α → Prop}
    {y : Nat → EStateM.Result Stop Machine α} (h : Settled c room rel y) (fuel : Nat) :
    (final (y fuel)).store.Made Function.LoopFree := by
  have ends := h.ends fuel
  cases run : y fuel with
  | ok a m =>
      rw [run] at ends
      exact ends.1.store
  | error stop m =>
      rw [run] at ends
      exact ends

theorem Eval.Settles.settled {α : Type} {c : Context} {rel : α → Prop} {x : Nat → Eval α}
    (h : ∀ room, Settles c room rel x) {m : Machine} (made : m.store.Made Function.LoopFree) :
    ∃ room, Settled c room rel fun fuel => x fuel m :=
  ⟨(c.limit - m.depth).toNat, h _ m ⟨made, by omega⟩⟩

/-- A run was cut short. -/
def Failure.Cut : Failure → Prop
  | .exhausted | .outOfFuel => True
  | .syntaxErrors _ | .runtimeError _ | .depthTooLarge => False

namespace Session

variable {α β : Type}

structure Quiet (x : Session α) : Prop where
  context (i : Interpreter) : (final (x i)).context = i.context
  store (i : Interpreter) : (final (x i)).machine.store = i.machine.store
  whole (i j : Interpreter) (failure : Failure) : failure.Cut → x i ≠ .error failure j

structure Rests (enough : Prop) (r : EStateM.Result Failure Interpreter α) : Prop where
  made : (final r).machine.store.Made Function.LoopFree
  whole (h : enough) (j : Interpreter) (failure : Failure) : failure.Cut → r ≠ .error failure j

def Ends (c : Context) (work : Nat → Session α) : Prop :=
  ∀ i : Interpreter, i.context = c → i.machine.store.Made Function.LoopFree →
    ∃ enough, ∀ fuel, Rests (enough ≤ fuel) (work fuel i)

theorem Quiet.pure (a : α) : Quiet (Pure.pure a) := ⟨fun _ => rfl, fun _ => rfl, fun _ _ _ _ => nofun⟩

theorem Quiet.reject (errors : List SyntaxError) : Quiet (throw (.syntaxErrors errors) : Session α) :=
  ⟨fun _ => rfl, fun _ => rfl, by rintro _ _ _ cut ⟨⟩; exact cut⟩

theorem Quiet.note (event : Event) : Quiet (note event) :=
  ⟨fun _ => rfl, fun _ => rfl, fun _ _ _ _ => nofun⟩

theorem Quiet.get : Quiet (get : Session Interpreter) :=
  ⟨fun _ => rfl, fun _ => rfl, fun _ _ _ _ => nofun⟩

theorem Quiet.read (source : String) : Quiet (read source) :=
  ⟨fun _ => rfl, fun _ => rfl, fun _ _ _ _ => nofun⟩

theorem Quiet.compile (source : String) : Quiet (compile source) := by
  have runs : ∀ i, (∃ body log, Session.compile source i = .ok body { i with log }) ∨
      ∃ errors log, Session.compile source i = .error (.syntaxErrors errors) { i with log } := by
    intro i
    cases compiled : Program.compile i.context.nesting source with
    | ok body => exact .inl ⟨body, compile_eq compiled⟩
    | error errors => exact .inr ⟨errors, compile_rejects compiled⟩
  refine ⟨fun i => ?_, fun i => ?_, fun i j failure cut => ?_⟩ <;>
    obtain ⟨_, log, run⟩ | ⟨_, log, run⟩ := runs i <;> rw [run]
  case refine_3.inl => exact nofun
  case refine_3.inr =>
    rintro ⟨⟩
    exact cut
  all_goals rfl

theorem Quiet.printLine (line : String) : Quiet (printLine line) :=
  ⟨fun _ => rfl, fun _ => rfl, fun _ _ _ _ => nofun⟩

variable {c : Context}

theorem Quiet.ends {x : Session α} (h : Quiet x) : Ends c fun _ => x :=
  fun i _ made => ⟨0, fun _ => ⟨h.store i ▸ made, fun _ => h.whole i⟩⟩

theorem Quiet.bind {x : Session α} {f : Nat → α → Session β} (first : Quiet x)
    (next : ∀ i a j, i.context = c → x i = .ok a j → Ends c fun fuel => f fuel a) :
    Ends c fun fuel => x >>= f fuel := by
  intro i same made
  have context := first.context i
  have store := first.store i
  have whole := first.whole i
  simp only [Bind.bind, EStateM.bind]
  cases run : x i with
  | ok a j =>
      rw [run] at context store
      exact next i a j same run j (context.trans same) (store ▸ made)
  | error failure j =>
      rw [run] at store whole
      refine ⟨0, fun _ => ⟨store ▸ made, ?_⟩⟩
      rintro - k _ cut ⟨⟩
      exact whole j failure cut rfl

theorem Ends.bind {x : Nat → Session α} {f : α → Session β} (first : Ends c x)
    (next : ∀ a, Quiet (f a)) : Ends c fun fuel => x fuel >>= f := by
  intro i same made
  obtain ⟨enough, ends⟩ := first i same made
  refine ⟨enough, fun fuel => ?_⟩
  have ends := ends fuel
  simp only [Bind.bind, EStateM.bind]
  cases run : x fuel i with
  | ok a j =>
      rw [run] at ends
      exact ⟨(next a).store j ▸ ends.made, fun _ => (next a).whole j⟩
  | error failure j =>
      rw [run] at ends
      refine ⟨ends.made, ?_⟩
      rintro le k _ cut ⟨⟩
      exact ends.whole le j failure cut rfl

theorem Ends.tryCatch {x : Nat → Session α} {handler : Failure → Session α} (h : Ends c x)
    (fails : ∀ failure j, ∃ k, handler failure j = .error failure k ∧
      k.machine.store = j.machine.store) :
    Ends c fun fuel => MonadExcept.tryCatch (x fuel) handler := by
  intro i same made
  obtain ⟨enough, ends⟩ := h i same made
  refine ⟨enough, fun fuel => ?_⟩
  have ends := ends fuel
  simp only [MonadExcept.tryCatch, tryCatchThe, MonadExceptOf.tryCatch, EStateM.tryCatch]
  cases run : x fuel i with
  | ok a j =>
      rw [run] at ends
      exact ends
  | error failure j =>
      rw [run] at ends
      obtain ⟨k, failed, store⟩ := fails failure j
      change Rests _ (handler failure j)
      rw [failed]
      refine ⟨store ▸ ends.made, ?_⟩
      rintro le k _ cut ⟨⟩
      exact ends.whole le j failure cut rfl

theorem ends_onMachine {work : Nat → Context → Eval α} {rel : α → Prop}
    (settles : ∀ room, Eval.Settles c room rel fun fuel => work fuel c)
    (contained : ∀ fuel, (work fuel c).Contained) : Ends c fun fuel => onMachine (work fuel) := by
  rintro i rfl made
  obtain ⟨room, settled⟩ := Eval.Settles.settled settles (m := { i.machine with depth := 0 }) made
  obtain ⟨enough, r, same, never⟩ := settled.halts
  refine ⟨enough, fun fuel => ?_⟩
  have after := settled.made fuel
  show Rests _ (onMachine (work fuel) i)
  unfold onMachine
  split
  · exact ⟨made, by rintro _ _ _ cut ⟨⟩; exact cut⟩
  · cases run : work fuel i.context { i.machine with depth := 0 } with
    | ok a m =>
        rw [run] at after
        exact ⟨after, fun _ _ _ _ => nofun⟩
    | error stop m =>
        rw [run] at after
        cases stop with
        | error e => exact ⟨after, by rintro _ _ _ cut ⟨⟩; exact cut⟩
        | exhausted => exact absurd run (contained fuel _ _)
        | outOfFuel => exact ⟨after, fun le => absurd ((same fuel le).symm.trans run) (never m)⟩

theorem accepted_of_compile {source : String} {body : List Stmt} {i j : Interpreter}
    (compiled : compile source i = .ok body j) :
    Program.compile i.context.nesting source = .ok body := by
  cases same : Program.compile i.context.nesting source with
  | ok other =>
      obtain ⟨log, run⟩ := compile_eq same
      rw [run] at compiled
      cases compiled
      rfl
  | error errors =>
      obtain ⟨log, run⟩ := compile_rejects same
      rw [run] at compiled
      cases compiled

section
variable (gives : c.Gives Function.LoopFree)
include gives

theorem ends_interpret {body : List Stmt} (loopFree : ∀ s ∈ body, s.LoopFree) :
    Ends c fun fuel => interpret fuel body :=
  (Quiet.note _).bind fun _ _ _ _ _ => ends_onMachine
    (fun room => program_settles gives room loopFree) fun fuel => program_contained c fuel body

theorem ends_evaluateGlobal (e : Expr) : Ends c fun fuel => evaluateGlobal fuel e :=
  ends_onMachine (fun room => expression_settles gives room e _)
    fun fuel => (evaluation_contained c fuel).1 e _

theorem ends_answer (e : Expr) : Ends c fun fuel => some <$> evaluateGlobal fuel e := by
  simp only [map_eq_pure_bind]
  exact (ends_evaluateGlobal gives e).bind fun _ => .pure _

variable {source : String} (loopFree : Program.LoopFree source)
include loopFree

theorem ends_run : Ends c fun fuel => run fuel source := by
  refine Ends.tryCatch ((Quiet.compile source).bind fun i body j _ compiled => ?_)
    fun failure j => ?_
  · have inside := loopFree _ body (accepted_of_compile compiled)
    exact (ends_interpret gives inside).bind fun _ => .note _
  · cases failure with
    | syntaxErrors errors =>
        exact ⟨_, bind_error.mpr (.inr ⟨(), _, printLines_eq errors j, rfl⟩), rfl⟩
    | runtimeError | depthTooLarge | exhausted | outOfFuel => exact ⟨_, rfl, rfl⟩

theorem ends_enter : Ends c fun fuel => enter fuel source := by
  refine (Quiet.read source).bind ?_
  rintro i _ j - ⟨⟩
  by_cases accepted : (Program.read i.context.nesting source).errors.isEmpty
  · have compiled : Program.compile i.context.nesting source =
        .ok (Program.read i.context.nesting source).statements := by
      simp [Program.compile, accepted]
    simp only [if_pos accepted]
    split
    · exact ends_answer gives _
    · exact (ends_interpret gives (loopFree _ _ compiled)).bind fun _ => .pure _
  · simp only [if_neg accepted]
    refine Quiet.get.bind fun i _ _ _ _ => ?_
    split
    · exact ends_answer gives _
    · exact (Quiet.reject _).ends

theorem ends_echo : Ends c fun fuel => echo fuel source := by
  refine Ends.tryCatch ((ends_enter gives loopFree).bind fun answer => ?_) fun failure j => ?_
  · cases answer with
    | none => exact .pure _
    | some value => exact .printLine _
  · cases failure with
    | syntaxErrors errors =>
        exact ⟨_, bind_error.mpr (.inr ⟨(), _, printLines_eq errors j, rfl⟩), rfl⟩
    | runtimeError | depthTooLarge | exhausted | outOfFuel => exact ⟨_, rfl, rfl⟩

end

end Session

theorem Session.Runs.made {α : Type} {source : String} {work : Session α} (h : Runs source work)
    (loopFree : Program.LoopFree source) {i : Interpreter}
    (gives : i.context.Gives Function.LoopFree) (made : i.machine.store.Made Function.LoopFree) :
    (final (work i)).machine.store.Made Function.LoopFree := by
  cases h with
  | run fuel =>
      obtain ⟨_, ends⟩ := ends_run gives loopFree i rfl made
      exact (ends fuel).made
  | enter fuel =>
      obtain ⟨_, ends⟩ := ends_enter gives loopFree i rfl made
      exact (ends fuel).made
  | echo fuel =>
      obtain ⟨_, ends⟩ := ends_echo gives loopFree i rfl made
      exact (ends fuel).made

theorem Interpreter.Ran.loopFree {start i : Interpreter} {past : List String} (h : start.Ran past i)
    (gives : start.context.Gives Function.LoopFree)
    (made : start.machine.store.Made Function.LoopFree)
    (loopFree : ∀ source ∈ past, Program.LoopFree source) :
    i.machine.store.Made Function.LoopFree := by
  induction h with
  | start => exact made
  | next before runs ih =>
      rw [← before.leads.context] at gives
      obtain ⟨others, last⟩ := List.forall_mem_append.mp loopFree
      exact runs.made (last _ (.head _)) gives (ih others)

/-- Without loops everything ends, whatever functions call each other and whatever the limit on
active calls is: normally or with a runtime error, in the same way with all fuel from some amount
on. -/
theorem loop_free_terminates :
    (∀ source, (∀ t ∈ (Scan.ofString source).tokens, ¬ t.BeginsLoop) → Program.LoopFree source) ∧
      (∀ c : Context, c.Gives Function.LoopFree → ∀ body (m : Machine), (∀ s ∈ body, s.LoopFree) →
        m.store.Made Function.LoopFree →
        ∃ enough r, (∀ fuel, enough ≤ fuel → Eval.program c fuel body m = r) ∧
          ((∃ m', r = .ok () m') ∨ ∃ e m', r = .error (.error e) m') ∧
          (final r).store.Made Function.LoopFree) ∧
      (∀ i : Interpreter, i.context.Gives Function.LoopFree →
        i.machine.store.Made Function.LoopFree →
        ∀ source, Program.LoopFree source → ∃ enough, ∀ fuel, enough ≤ fuel →
          ∀ j failure, failure.Cut → Session.run fuel source i ≠ .error failure j ∧
            Session.enter fuel source i ≠ .error failure j ∧
            Session.echo fuel source i ≠ .error failure j) ∧
      ∀ c : Context, c.Gives Function.LoopFree → ∀ past i, (Interpreter.new c).Ran past i →
        (∀ source ∈ past, Program.LoopFree source) → i.machine.store.Made Function.LoopFree := by
  refine ⟨fun source => Program.loopFree_of_tokens, fun c gives body m loopFree made => ?_,
    fun i gives made source loopFree => ?_, fun c gives past i ran loopFree => ?_⟩
  · obtain ⟨room, settled⟩ := Eval.Settles.settled
      (fun room => program_settles gives room loopFree) made
    obtain ⟨enough, r, same, never⟩ := settled.halts
    have run : Eval.program c enough body m = r := same enough le_rfl
    refine ⟨enough, r, same, ?_, run ▸ settled.made enough⟩
    cases r with
    | ok u m' => exact .inl ⟨m', rfl⟩
    | error stop m' =>
        cases stop with
        | error e => exact .inr ⟨e, m', rfl⟩
        | exhausted => exact absurd run (program_contained c enough body _ _)
        | outOfFuel => exact absurd rfl (never m')
  · obtain ⟨a, runs⟩ := Session.ends_run gives loopFree i rfl made
    obtain ⟨b, enters⟩ := Session.ends_enter gives loopFree i rfl made
    obtain ⟨d, echoes⟩ := Session.ends_echo gives loopFree i rfl made
    refine ⟨max a (max b d), fun fuel more j failure cut => ⟨?_, ?_, ?_⟩⟩
    · exact (runs fuel).whole (by omega) j failure cut
    · exact (enters fuel).whole (by omega) j failure cut
    · exact (echoes fuel).whole (by omega) j failure cut
  · exact ran.loopFree gives (Interpreter.new_made _ c) loopFree

theorem loop_free_terminates_recursion :
    let i := Interpreter.new { Host.doubling 100 with limit := 100 }
    ∃ body, Program.compile 100 "fun f() \x7b twice(\"a\"); f(); \x7d f();" = .ok body ∧
      (∃ enough r, ∀ fuel, enough ≤ fuel → Eval.program i.context fuel body i.machine = r) ∧
      ∃ enough, ∀ fuel, enough ≤ fuel → ∀ j,
        Session.run fuel "fun f() \x7b twice(\"a\"); f(); \x7d f();" i ≠ .error .outOfFuel j := by
  intro i
  have loopFree : Program.LoopFree "fun f() \x7b twice(\"a\"); f(); \x7d f();" :=
    loop_free_terminates.1 _ (by decide)
  have gives : i.context.Gives Function.LoopFree := Host.doubling_gives 100 _
  have made : i.machine.store.Made Function.LoopFree :=
    loop_free_terminates.2.2.2 _ gives [] i .start nofun
  obtain ⟨body, compiled⟩ :
      ∃ body, Program.compile 100 "fun f() \x7b twice(\"a\"); f(); \x7d f();" = .ok body :=
    ⟨_, rfl⟩
  obtain ⟨need, r, same, -⟩ :=
    loop_free_terminates.2.1 i.context gives body i.machine (loopFree _ body compiled) made
  obtain ⟨enough, runs⟩ := loop_free_terminates.2.2.1 i gives made _ loopFree
  exact ⟨body, compiled, ⟨need, r, same⟩, enough, fun fuel more j =>
    (runs fuel more j .outOfFuel trivial).1⟩

end Lox
