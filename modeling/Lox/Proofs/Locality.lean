import Lox.Proofs.Evaluation.Names
import Lox.Proofs.Evaluation.Reachable
import Lox.Proofs.Session.Code

namespace Lox

def Eval.withStore {α : Type} (σ : Store) :
    EStateM.Result Stop Machine α → EStateM.Result Stop Machine α
  | .ok a m => .ok a { m with store := σ }
  | .error stop m => .error stop { m with store := σ }

/-- However the work ends, the scopes that are hidden from a scope are as they were and remain
hidden, and it makes no difference what they are. -/
structure Eval.Local {α : Type} (x : Eval α) (s : Nat) (m : Machine) : Prop where
  kept {t : Nat} : m.store.Hidden s t → (x.after m).store.scopes[t]? = m.store.scopes[t]?
  hidden {t r : Nat} : m.store.Hidden s t → m.store.Hidden r t → (x.after m).store.Hidden r t
  blind {σ : Store} : m.store.Differs (m.store.Hidden s) σ →
    x { m with store := σ } = withStore (x.after { m with store := σ }).store (x m) ∧
      (x.after m).store.Differs (m.store.Hidden s) (x.after { m with store := σ }).store

section
variable {α : Type} {x : Eval α} {m : Machine} {s : Nat}

theorem Worlds.Simulates.spares {hidden : Nat → Prop} {before : Store}
    {old : ∀ t, hidden t → t < before.size} {rel : Unit → α → α → Prop}
    (h : (Worlds.spares hidden before old).Simulates (fun _ => False) () rel x x)
    (same : ∀ a b, rel () a b → a = b) {σ : Store} (spares : before.Spares hidden m.store)
    (differs : m.store.Differs hidden σ) :
    before.Spares hidden (x.after m).store ∧
      x { m with store := σ } = Eval.withStore (x.after { m with store := σ }).store (x m) ∧
        (x.after m).store.Differs hidden (x.after { m with store := σ }).store := by
  have follows := h () m { m with store := σ } le_rfl ⟨⟨spares, differs⟩, rfl, rfl, rfl, rfl⟩
  unfold Eval.after
  cases run : x m with
  | ok a m₁ =>
      rw [run] at follows
      obtain ⟨b, m₁', w, run', -, related, machines⟩ := follows
      obtain ⟨⟨spares', differs'⟩, declared, calls, depth, output⟩ := machines
      rw [run', ← same a b related]
      refine ⟨spares', ?_, differs'⟩
      cases m₁'
      simp_all [Eval.withStore, final]
  | error stop m₁ =>
      rw [run] at follows
      rcases follows with ⟨stop', m₁', w, run', -, alike, machines⟩ | ⟨short, -⟩
      · obtain ⟨⟨spares', differs'⟩, declared, calls, depth, output⟩ := machines
        rw [run', ← alike.eq]
        refine ⟨spares', ?_, differs'⟩
        cases m₁'
        simp_all [Eval.withStore, final]
      · exact short.elim

theorem Eval.Local.of_simulates (h : ∀ hidden before old, (∀ t, m.store.Reachable s t → ¬ hidden t) →
      ∃ rel, (Worlds.spares hidden before old).Simulates (fun _ => False) () rel x x ∧
        ∀ a b, rel () a b → a = b) : x.Local s m := by
  obtain ⟨rel, simulates, same⟩ := h (m.store.Hidden s) m.store (fun _ => And.left)
    fun _ reachable apart => apart.2 reachable
  have runs := fun σ => simulates.spares same (σ := σ) (.refl (.of_hidden m.store s))
  refine ⟨fun apart => (runs m.store ⟨rfl, fun _ => rfl⟩).1.kept apart,
    fun {t r} apart apart' => ?_, fun differs => (runs _ differs).2⟩
  -- What is hidden from both scopes remains so, because the rest leads to none of it.
  obtain ⟨rel, simulates, same⟩ := h (fun u => m.store.Hidden s u ∧ m.store.Hidden r u) m.store
    (fun _ both => both.1.1) fun _ reachable both => both.1.2 reachable
  have conceals := (Store.Conceals.of_hidden m.store s).and (.of_hidden m.store r)
  obtain ⟨spares, -⟩ := simulates.spares same (.refl conceals) ⟨rfl, fun _ => rfl⟩
  refine ⟨Nat.lt_of_lt_of_le apart.1 spares.size, fun reachable => ?_⟩
  exact spares.conceals.reachable (fun both => both.2.2 .here) reachable ⟨apart, apart'⟩

end

section
variable {c : Context} (fuel : Nat) {s : Nat} {m : Machine}
  (gives : c.Gives fun g => m.store.Reachable s g.closure)
include gives

theorem evaluate_local (e : Expr) : (evaluate c fuel e s).Local s m := by
  apply Eval.Local.of_simulates
  intro hidden before old visible
  have contexts : (Worlds.spares hidden before old).Contexts (fun _ => False) c c :=
    .spares (gives.mono fun _ => visible _)
  refine ⟨_, (Worlds.run_simulates faithful_eq contexts (.inl rfl)).1 () e e s s
    (.refl (fun _ => rfl) e) ⟨rfl, visible s .here⟩, fun a b value => ?_⟩
  exact (value.mono fun _ _ => And.left).eq

theorem execute_local (t : Stmt) : (execute c fuel t s).Local s m := by
  apply Eval.Local.of_simulates
  intro hidden before old visible
  have contexts : (Worlds.spares hidden before old).Contexts (fun _ => False) c c :=
    .spares (gives.mono fun _ => visible _)
  refine ⟨_, (Worlds.run_simulates faithful_eq contexts (.inl rfl)).2 () t t s s
    (.refl (fun _ => rfl) t) (.inl ⟨rfl, visible s .here⟩), fun a b completion => ?_⟩
  cases completion with
  | normal => rfl
  | returning value => rw [(value.mono fun _ _ => And.left).eq]

end

/-- The work of a moment, and not work that it starts, looks up, sets or binds a variable of a
scope. -/
inductive Moment.Accesses (c : Context) : Moment → Nat → Prop
  | name {fuel t scope m owner v} (found : m.store.resolve? scope t.lexeme = some (owner, v)) :
      Accesses c ⟨.expression (.variable t) scope, fuel + 1, m⟩ owner
  | assign {fuel t e scope m u m' owner v} (value : evaluate c fuel e scope m = .ok u m')
      (found : m'.store.resolve? scope t.lexeme = some (owner, v)) :
      Accesses c ⟨.expression (.assign t e) scope, fuel + 1, m⟩ owner
  | declare {fuel s name scope m} (declares : s.Declares name) :
      Accesses c ⟨.statement s scope, fuel + 1, m⟩ scope
  | parameters {fuel f paren arguments m} :
      Accesses c ⟨.call (.function f) paren arguments, fuel, m⟩ m.store.size

inductive Task.In : Nat → Task → Prop
  | program {statements} : In Interpreter.globals (.program statements)
  | body {statements s} : In s (.body statements s)
  | statement {t s} : In s (.statement t s)
  | expression {e s} : In s (.expression e s)

theorem Program.Means.in_globals {depth : Nat} {source : String} {task : Task}
    (means : Means depth source task) :
    task.In Interpreter.globals := by
  cases means with
  | statements => exact .program
  | value | bare => exact .expression

section
variable {c : Context} {hidden : Nat → Prop} {before : Store} {old : ∀ t, hidden t → t < before.size}
  {t : Nat}

theorem Task.In.spares {task : Task} {s : Nat} (h : task.In s) (visible : ¬ hidden s) :
    (Invariant.spares hidden before old).task task := by
  cases h with
  | program | body | expression => exact ⟨fun _ _ => trivial, visible⟩
  | statement => exact ⟨fun _ _ => trivial, .inl visible⟩

variable (gives : c.Gives fun g => ¬ hidden g.closure)
include gives

theorem Moment.Accesses.visible {a : Moment} (accesses : a.Accesses c t)
    (h : (Invariant.spares hidden before old).Holds a) : ¬ hidden t := by
  obtain ⟨task, store⟩ := h
  cases accesses with
  | name found => exact (store.conceals.resolveWithin task.2 found).1
  | assign value found =>
      obtain ⟨later, -⟩ := ((Invariant.evaluation_keeps gives _).1 _ _ (fun _ _ => trivial)
        task.2).of_ok store value
      exact (later.conceals.resolveWithin task.2 found).1
  | declare => exact task.2.elim id And.right
  | parameters => exact store.visible_size old

theorem Reaches.spares {a b : Moment} {n : Nat} (reaches : Reaches c a b n)
    (start : (Invariant.spares hidden before old).Holds a) (apart : hidden t) :
    b.machine.store.scopes[t]? = before.scopes[t]? ∧ ¬ b.Accesses c t := by
  have holds : (Invariant.spares hidden before old).Holds b := start.reaches gives reaches
  exact ⟨holds.store.kept apart, fun accesses => accesses.visible gives holds apart⟩

end

/-- Evaluation in a scope is local, and at no moment of it is a hidden scope looked at or changed.
What is hidden from the global scope is hidden from all that is run later. A built-in function may
return its arguments, and functions that were declared in scopes one can get to. -/
theorem evaluation_is_local (c : Context) (fuel : Nat) :
    (∀ m s, (c.Gives fun g => m.store.Reachable s g.closure) →
      (∀ e, (evaluate c fuel e s).Local s m) ∧ (∀ t, (execute c fuel t s).Local s m) ∧
      ∀ task, task.In s → ∀ b n, Reaches c ⟨task, fuel, m⟩ b n → ∀ t, m.store.Hidden s t →
        b.machine.store.scopes[t]? = m.store.scopes[t]? ∧ ¬ b.Accesses c t) ∧
    ∀ i past j, Interpreter.Ran i past j →
      (i.context.Gives fun g => i.machine.store.Reachable Interpreter.globals g.closure) →
      ∀ t, i.machine.store.Hidden Interpreter.globals t →
        j.machine.store.Hidden Interpreter.globals t ∧
        j.machine.store.scopes[t]? = i.machine.store.scopes[t]? ∧
        ∀ source task, Program.Means j.context.nesting source task →
          ∀ b n, Reaches j.context ⟨task, fuel, j.machine.idle⟩ b n →
            b.machine.store.scopes[t]? = i.machine.store.scopes[t]? ∧ ¬ b.Accesses j.context t := by
  constructor
  · intro m s gives
    refine ⟨evaluate_local fuel gives, execute_local fuel gives, ?_⟩
    intro task place b n reaches t apart
    have visible : c.Gives fun g => ¬ m.store.Hidden s g.closure :=
      gives.mono fun _ reachable apart => apart.2 reachable
    have start : (Invariant.spares (m.store.Hidden s) m.store fun _ => And.left).Holds
        ⟨task, fuel, m⟩ :=
      ⟨place.spares fun apart => apart.2 .here, .refl (.of_hidden m.store s)⟩
    exact reaches.spares visible start apart
  · intro i past j ran gives t apart
    let V := Invariant.spares (i.machine.store.Hidden Interpreter.globals) i.machine.store
      fun _ => And.left
    have visible : i.context.Gives V.function := gives.mono fun _ reachable apart => apart.2 reachable
    have globals : ¬ i.machine.store.Hidden Interpreter.globals Interpreter.globals :=
      fun apart => apart.2 .here
    have spares : V.store j.machine.store := ran.keeps visible (.refl (.of_hidden _ _))
      fun _ _ _ means => means.in_globals.spares globals
    refine ⟨⟨Nat.lt_of_lt_of_le apart.1 spares.size, fun reachable =>
      spares.conceals.reachable globals reachable apart⟩, spares.kept apart, ?_⟩
    intro source task means b n reaches
    have start : V.Holds ⟨task, fuel, j.machine.idle⟩ := ⟨means.in_globals.spares globals, spares⟩
    rw [← ran.leads.context] at visible
    exact reaches.spares visible start apart

theorem evaluation_is_local_finished :
    let f : Token := ⟨.identifier, "f", .nil, 1⟩
    let x : Token := ⟨.identifier, "x", .nil, 1⟩
    let paren : Token := ⟨.rightParen, ")", .nil, 1⟩
    let call : Expr := .call (.variable f) paren [.literal .nil]
    let calls : List Stmt := [.funDecl f [x] [], .expression call]
    let c : Context := { Host.doubling 100 with limit := 10 }
    let m := (Eval.program c 3 calls).after (Interpreter.new c).machine
    let i : Interpreter := { context := c, machine := m }
    let j := final (Session.run 9 "var x = twice(\"ab\");" i)
    m.store.Hidden Interpreter.globals 1 ∧
      j.machine.store.scopes[1]? = some { enclosing := some 0, bindings := [("x", .nil)] } := by
  intro f x paren call calls c m i j
  have shape : m.store = { scopes :=
      #[{ bindings := [("twice", .native .twice), ("f", .function ⟨.declared 0, f, [x], [], 0⟩)] },
        { enclosing := some 0, bindings := [("x", .nil)] }] } := rfl
  have outermost : ∀ {t : Nat} {scope : Scope}, ¬ t = 1 → m.store.scopes[t]? = some scope →
      scope.enclosing = none ∧ scope.bindings =
        [("twice", .native .twice), ("f", .function ⟨.declared 0, f, [x], [], 0⟩)] := by
    intro t scope visible found
    rw [shape] at found
    match t with
    | 0 =>
        cases found
        exact ⟨rfl, rfl⟩
    | 1 => exact absurd rfl visible
    | t + 2 => simp at found
  have conceals : m.store.Conceals (· = 1) := by
    refine ⟨fun visible found outer => ?_, fun visible found member => ?_⟩
    · rw [(outermost visible found).1] at outer
      cases outer
    · rw [(outermost visible found).2] at member
      rcases List.mem_pair.mp member with same | same
      · cases same
        exact .native
      · cases same
        exact .function (by decide)
  have apart : m.store.Hidden Interpreter.globals 1 :=
    ⟨by rw [shape]; decide, fun reachable => conceals.reachable (by decide) reachable rfl⟩
  have ran : i.Ran ["var x = twice(\"ab\");"] j := .next .start (.run 9)
  obtain ⟨-, same, -⟩ := (evaluation_is_local i.context 9).2 i _ j ran
    (Host.doubling_gives 100 _) 1 apart
  exact ⟨apart, same.trans (by rw [shape]; rfl)⟩

end Lox
