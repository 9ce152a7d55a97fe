import Lox.Proofs.Evaluation.Occurrence

namespace Lox

namespace Store

/-- The search for the variable that a name means: from scope to scope outwards, without a bound,
to the first that binds it or past the last. -/
inductive Search (σ : Store) (name : String) : (s : Nat) → Option (Nat × Value) → Prop
  | here {s v} (bound : σ.cell s name = some v) : Search σ name s (some (s, v))
  | outer {s e r} (unbound : σ.cell s name = none) (link : σ.outer s = some e)
      (rest : Search σ name e r) : Search σ name s r
  | missing {s} (unbound : σ.cell s name = none) (last : σ.outer s = none) : Search σ name s none

structure Sound (names : List String) (σ : Store) : Prop where
  older {s e : Nat} : σ.outer s = some e → e < s
  root {s : Nat} : s < σ.size → (σ.outer s = none ↔ s = Interpreter.globals)
  leads {s : Nat} : s < σ.size → ∃ passed, σ.Leads s passed Interpreter.globals
  closures : σ.Made fun f => f.closure < σ.size
  search (s : Nat) (name : String) : ∃ r, σ.Search name s r ∧ σ.get? s name = r.map Prod.snd ∧
    ∀ v, σ.assign? s name v = r.map fun (owner, _) => σ.define owner name v
  visible {s : Nat} {name : String} {v : Value} : s < σ.size →
    σ.cell Interpreter.globals name = some v →
    (∃ u, σ.get? s name = some u) ∧ (σ.Exposes s name Interpreter.globals → σ.get? s name = some v)
  bound {name : String} : name ∈ names → ∃ v, σ.cell Interpreter.globals name = some v

variable {names : List String} {σ : Store} {s : Nat} {name : String}

theorem Layered.search (older : σ.Layered) (s : Nat) (name : String) :
    σ.Search name s (σ.resolve? s name) := by
  induction s using Nat.strongRecOn with
  | ind s ih =>
      rw [older.resolve?_eq]
      cases bound : σ.cell s name with
      | some v => exact .here bound
      | none =>
          cases link : σ.outer s with
          | none => exact .missing bound link
          | some e => exact .outer bound link (ih e (older.outer_lt link))

theorem Layered.get?_isSome (older : σ.Layered) {t : Nat} {passed : List Nat} {v : Value}
    (leads : σ.Leads s passed t) (bound : σ.cell t name = some v) :
    ∃ u, σ.get? s name = some u := by
  induction leads with
  | here => exact ⟨v, by rw [older.get?_eq, bound]⟩
  | @outer s e passed t link _ ih =>
      rw [older.get?_eq]
      cases σ.cell s name with
      | some u => exact ⟨u, rfl⟩
      | none =>
          rw [link]
          exact ih bound

namespace Grounded

theorem leads (h : σ.Grounded names) (inside : s < σ.size) :
    ∃ passed, σ.Leads s passed Interpreter.globals := by
  induction s using Nat.strongRecOn with
  | ind s ih =>
      cases link : σ.outer s with
      | none => exact ⟨[], (h.root inside).mp link ▸ .here⟩
      | some e =>
          have less := h.older.outer_lt link
          obtain ⟨passed, leads⟩ := ih e less (less.trans inside)
          exact ⟨s :: passed, .outer link leads⟩

theorem sound (h : σ.Grounded names) : σ.Sound names where
  older := h.older.outer_lt
  root := h.root
  leads := h.leads
  closures _ _ _ _ found member := Value.within_iff.mp (h.values found member)
  search s name := ⟨_, h.older.search s name, rfl, fun _ => rfl⟩
  visible inside bound := by
    obtain ⟨passed, leads⟩ := h.leads inside
    exact ⟨h.older.get?_isSome leads bound, fun exposes =>
      h.older.get?_eq_some.mpr ⟨_, ⟨exposes, _, bound⟩, bound⟩⟩
  bound := h.bound

theorem bind (h : σ.Grounded names) (name : String) {v : Value} (within : v.Within σ.size) :
    (σ.define Interpreter.globals name v).Grounded (name :: names) := by
  have defined := h.define h.globals name within
  refine { defined with bound := fun {other} member => ?_ }
  rcases List.mem_cons.mp member with rfl | before
  · exact ⟨v, (sets_define h.globals other v).cell⟩
  · exact defined.bound before

end Grounded

end Store

variable {context : Context}

theorem Interpreter.new_grounded (context : Context) :
    (Interpreter.new context).machine.store.Grounded (context.natives.map Native.name) := by
  have defines : ∀ (fs : List Native) (names : List String) (σ : Store), σ.Grounded names →
      (fs.foldl (fun σ f => σ.define globals f.name (.native f)) σ).Grounded
        ((fs.map Native.name).reverse ++ names) := by
    intro fs
    induction fs with
    | nil => exact fun _ _ h => h
    | cons f fs ih =>
        intro names σ h
        have next := ih (f.name :: names) _ (h.bind f.name (v := .native f) .native)
        simpa using next
  obtain ⟨wellFormed, size⟩ := Interpreter.new_wellFormed { context with natives := [] }
  have start : (Store.push {} none).Grounded [] := by
    refine { wellFormed with globals := size, root := fun {s} inside => ?_, bound := nofun }
    have first : s = globals := Nat.lt_one_iff.mp inside
    subst first
    exact ⟨fun _ => rfl, fun _ => rfl⟩
  have all := defines context.natives [] _ start
  refine { all with bound := fun {name} member => all.bound ?_ }
  rw [List.append_nil]
  exact List.mem_reverse.mpr member

theorem Program.Means.within {depth : Nat} {source : String} {task : Task}
    (means : Program.Means depth source task) {n : Nat} (inside : Interpreter.globals < n) :
    task.Within n := by
  cases means <;> exact inside

theorem Interpreter.Ran.grounded {start i : Interpreter} {past : List String}
    (gives : start.context.Gives Function.IsGlobal) (h : start.Ran past i)
    (before : start.machine.store.Grounded names) : i.machine.store.Grounded names := by
  induction h with
  | start => exact before
  | @next α past source i work earlier runs ih =>
      rw [← earlier.leads.context] at gives
      cases runs.works _ i rfl with
      | refused kept => exact kept ▸ ih
      | done fuel means store =>
          rw [store]
          exact (Task.grounds gives (means.within ih.globals) fuel i.machine.idle le_rfl ih).1

/-- At every moment of every run the scopes form a tree with the global scope at its root, and the
functions that are stored or held were declared in scopes that exist. -/
theorem scopes_form_tree (gives : context.Gives Function.IsGlobal) {past : List String}
    {i : Interpreter} (ran : (Interpreter.new context).Ran past i) :
    i.machine.store.Sound (context.natives.map Native.name) ∧
      ∀ source task fuel, Program.Means i.context.nesting source task →
        (∀ m, Occurs i.context ⟨task, fuel, i.machine.idle⟩ m →
          m.store.Sound (context.natives.map Native.name)) ∧
        ∀ m v, Held i.context ⟨task, fuel, i.machine.idle⟩ m v →
          v.Made fun f => f.closure < m.store.size := by
  have store := ran.grounded gives (Interpreter.new_grounded context)
  rw [← show i.context = context from ran.leads.context] at gives
  refine ⟨store.sound, fun source task fuel means => ?_⟩
  have start : Moment.Grounded (context.natives.map Native.name) ⟨task, fuel, i.machine.idle⟩ :=
    ⟨store, means.within store.globals⟩
  exact ⟨fun m occurs => (occurs.grounded gives start).1.sound,
    fun m v held => Value.within_iff.mp (held.within gives start)⟩

theorem scopes_form_tree_call :
    let c : Context := { Host.doubling 100 with limit := 9 }
    let start := Interpreter.new c
    let i := final (Session.run 9 "fun f(a) \x7b return a; \x7d" start)
    let f : Expr := .variable ⟨.identifier, "f", .nil, 1⟩
    let e : Expr := .call f ⟨.rightParen, ")", .nil, 1⟩ [f]
    Program.compile 100 "f(f);" = .ok [.expression e] ∧
      ∃ v m, evaluate i.context 9 e Interpreter.globals i.machine.idle = .ok v m ∧
        m.store.Sound ["twice"] ∧ m.store.size = 2 ∧ v.Made fun g => g.closure < m.store.size := by
  intro c start i f e
  have ran : start.Ran ["fun f(a) \x7b return a; \x7d"] i := .next .start (.run 9)
  have compiled : Program.compile 100 "f(f);" = .ok [.expression e] := rfl
  have scopes : (match evaluate i.context 9 e Interpreter.globals i.machine.idle with
      | .ok _ m => m.store.size
      | .error _ _ => 0) = 2 := by
    decide +kernel
  have nesting : i.context.nesting = 100 := congrArg (·.nesting) ran.leads.context
  have means : Program.Means i.context.nesting "f(f);" (.expression e Interpreter.globals) := by
    rw [nesting]
    exact .value compiled
  obtain ⟨occurs, held⟩ := (scopes_form_tree (Host.doubling_gives 100 _) ran).2 "f(f);" _ 9 means
  cases done : evaluate i.context 9 e Interpreter.globals i.machine.idle with
  | error stop m => simp [done] at scopes
  | ok v m =>
      rw [done] at scopes
      have ends :
          final (Moment.run i.context ⟨.expression e Interpreter.globals, 9, i.machine.idle⟩) = m := by
        rw [Moment.run, Task.run, discard_eq done]
        rfl
      have sound := occurs _ (.passes (.ends .here))
      rw [ends] at sound
      exact ⟨compiled, v, m, rfl, sound, scopes, held m v (.value .here done)⟩

end Lox
