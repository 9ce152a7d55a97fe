import Lox.Proofs.Evaluation.Reached
import Lox.Proofs.Evaluation.WellFormed
import Lox.Proofs.Grammar.Parts
import Lox.Proofs.Session.Work

namespace Lox

def Program.Contains (source : String) (x : Expr) : Prop :=
  (∃ depth body, compile depth source = .ok body ∧ x ∈ Stmt.allExpressions body) ∨
    ∃ depth e, readExpression depth source = .ok e ∧ x ∈ e.parts

def Program.Known (past : List String) (x : Expr) : Prop := ∃ source ∈ past, Contains source x

theorem Program.Contains.written {source : String} {x : Expr} (h : Contains source x) :
    Grammar.Written (Scan.ofString source).tokens x := by
  rcases h with ⟨depth, body, compiled, member⟩ | ⟨depth, e, read, member⟩
  · obtain ⟨-, derived⟩ := compile_eq_ok.mp compiled
    exact derived.written (fun _ => id) x member
  · obtain ⟨-, value⟩ := readExpression_derived read
    exact value.written (fun _ => id) x member

def Store.Made (property : Function → Prop) (σ : Store) : Prop :=
  ∀ (s : Nat) (scope : Scope) (name : String) (v : Value),
    σ.scopes[s]? = some scope → (name, v) ∈ scope.bindings → v.Made property

namespace Store.Made

variable {property : Function → Prop} {σ : Store}

theorem define (h : σ.Made property) (s : Nat) (name : String) {v : Value}
    (made : v.Made property) : (σ.define s name v).Made property := by
  intro t scope other u found member
  obtain ⟨old, there, -, values⟩ := of_define found
  rcases values _ _ member with rfl | before
  · exact made
  · exact h t old other u there before

theorem push (h : σ.Made property) (enclosing : Option Nat) : (σ.push enclosing).Made property := by
  intro t scope name v found member
  rw [scopes_push] at found
  split at found
  · cases found
    cases member
  · exact h t scope name v found member

theorem mono {more : Function → Prop} (h : σ.Made property) (imp : ∀ f, property f → more f) :
    σ.Made more :=
  fun s scope name v found member => (h s scope name v found member).mono imp

end Store.Made

def Invariant.code (node : Expr → Prop) : Invariant where
  node := node
  store := Store.Made fun f => ∀ x ∈ Stmt.allExpressions f.body, node x
  leads _ _ := True
  function f := ∀ x ∈ Stmt.allExpressions f.body, node x
  sees _ := True
  owns _ := True
  refl _ := trivial
  trans _ _ := trivial
  sees_of_owns _ := trivial
  declared _ code := code
  body code := ⟨trivial, code⟩
  resolve made _ found := by
    obtain ⟨scope, there, bound⟩ := Store.bound_of_resolveWithin found
    exact made _ scope _ _ there (Scope.mem_of_get? bound)
  assign made _ _ value := ⟨made.define _ _ value, trivial⟩
  define name _ made _ value := ⟨made.define _ name value, trivial⟩
  push made _ := ⟨made.push _, trivial, trivial⟩

theorem Program.Means.task_code {depth : Nat} {source : String} {task : Task}
    (means : Means depth source task)
    {node : Expr → Prop} (code : ∀ x, Contains source x → node x) :
    (Invariant.code node).task task := by
  cases means with
  | statements compiled => exact ⟨fun x member => code x (.inl ⟨_, _, compiled, member⟩), trivial⟩
  | value compiled =>
      exact ⟨fun x member => code x (.inl ⟨_, _, compiled, List.mem_append_left _ member⟩), trivial⟩
  | bare read => exact ⟨fun x member => code x (.inr ⟨_, _, read, member⟩), trivial⟩

/-- An interpreter after texts were run on it one after the other, each to whatever end. -/
inductive Interpreter.Ran (start : Interpreter) : List String → Interpreter → Prop
  | start : Ran start [] start
  | next {α past source i} {work : Session α} (before : Ran start past i)
      (runs : Session.Runs source work) : Ran start (past ++ [source]) (final (work i))

theorem Program.Known.later {past : List String} {x : Expr} (h : Known past x) (source : String) :
    Known (past ++ [source]) x := by
  obtain ⟨origin, member, contains⟩ := h
  exact ⟨origin, List.mem_append_left _ member, contains⟩

theorem Program.known_last {source : String} {x : Expr} (contains : Contains source x)
    (past : List String) : Known (past ++ [source]) x :=
  ⟨source, List.mem_append_right _ (.head _), contains⟩

theorem Interpreter.Ran.leads {start i : Interpreter} {past : List String} (h : start.Ran past i) :
    start.Leads i := by
  induction h with
  | start => exact .refl start
  | next _ runs ih => exact ih.trans (runs.restores _)

theorem Interpreter.Ran.keeps {V : Invariant} {start i : Interpreter} {past : List String}
    (gives : start.context.Gives V.function) (h : start.Ran past i) (before : V.store start.machine.store)
    (tasks : ∀ source ∈ past, ∀ task, Program.Means start.context.nesting source task → V.task task) :
    V.store i.machine.store := by
  induction h with
  | start => exact before
  | @next α past source i work earlier runs ih =>
      rw [← earlier.leads.context] at gives
      obtain ⟨others, last⟩ := List.forall_mem_append.mp tasks
      have before := ih others
      cases runs.works _ i rfl with
      | refused kept => exact kept ▸ before
      | done fuel means store =>
          have task := last source (.head _) _ (earlier.leads.context ▸ means)
          have keeps := Invariant.task_keeps gives task fuel
          have idle : V.store i.machine.idle.store := before
          rw [store]
          exact (keeps.after idle).1

theorem Interpreter.Ran.code {node : Expr → Prop} {start i : Interpreter} {past : List String}
    (gives : start.context.Gives fun g => ∀ x ∈ Stmt.allExpressions g.body, node x)
    (h : start.Ran past i) (made : (Invariant.code node).store start.machine.store)
    (known : ∀ x, Program.Known past x → node x) : (Invariant.code node).store i.machine.store :=
  h.keeps (V := .code node) gives made fun source member _ means =>
    means.task_code fun x contains => known x ⟨source, member, contains⟩

theorem Interpreter.new_made (property : Function → Prop) (c : Context) :
    (Interpreter.new c).machine.store.Made property := by
  have defines : ∀ (fs : List Native) (σ : Store), σ.Made property →
      (fs.foldl (fun σ f => σ.define globals f.name (.native f)) σ).Made property := by
    intro fs
    induction fs with
    | nil => exact fun σ made => made
    | cons f fs ih => exact fun σ made => ih _ (made.define _ _ .native)
  have empty : (Store.mk #[]).Made property := by
    intro s scope name v found
    cases found
  exact defines c.natives _ (empty.push none)

theorem Session.Runs.raises {α : Type} {node : Expr → Prop} {source : String} {work : Session α}
    (runs : Runs source work) {i j : Interpreter} {e : RuntimeError}
    (gives : i.context.Gives fun g => ∀ x ∈ Stmt.allExpressions g.body, node x)
    (made : (Invariant.code node).store i.machine.store)
    (code : ∀ x, Program.Contains source x → node x) (fails : work i = .error (.runtimeError e) j) :
    ∃ task fuel a active, Program.Means i.context.nesting source task ∧
      Reaches i.context ⟨task, fuel, i.machine.idle⟩ a active ∧ (Invariant.code node).Holds a ∧
      a.Raises i.context e := by
  cases runs.works _ i rfl with
  | refused _ other => exact absurd fails (other e j)
  | @done task fuel means _ errors =>
      obtain ⟨a, active, reaches, raises⟩ := (fails_iff e).mp (errors e j fails)
      have start : (Invariant.code node).Holds ⟨task, fuel, i.machine.idle⟩ :=
        ⟨means.task_code code, made⟩
      exact ⟨task, fuel, a, active, means, reaches, start.reaches gives reaches, raises⟩

end Lox
