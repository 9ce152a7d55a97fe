import Lox.Proofs.Evaluation.Moment
import Lox.Proofs.Resolution

/-!
Every moment of a run has a store with the global scope at its root, in which functions were
declared in scopes that exist; and so were the functions that are only held, while an operand is
evaluated, as an argument or as a result.

The proof runs a machine beside itself: `Worlds.grounded` relates a store to itself, and a scope or
a function to itself if there is such a scope.
-/

namespace Lox

/-- A well-formed store in which the global scope is the only one outside of all others, and binds
the given names. -/
structure Store.Grounded (names : List String) (σ : Store) : Prop extends σ.WellFormed where
  globals : Interpreter.globals < σ.size
  root {s : Nat} (inside : s < σ.size) : σ.outer s = none ↔ s = Interpreter.globals
  bound {name : String} (member : name ∈ names) : ∃ v, σ.cell Interpreter.globals name = some v

namespace Store.Grounded

variable {names : List String} {σ : Store}

theorem define (h : σ.Grounded names) {s : Nat} (inside : s < σ.size) (name : String) {v : Value}
    (within : v.Within σ.size) : (σ.define s name v).Grounded names := by
  have sets := sets_define inside name v
  refine ⟨h.toWellFormed.define s name within, ?_, fun {t} there => ?_, fun {other} member => ?_⟩
  · rw [sets.size]
    exact h.globals
  · rw [sets.size] at there
    rw [sets.outer]
    exact h.root there
  · by_cases same : Interpreter.globals = s ∧ other = name
    · obtain ⟨rfl, rfl⟩ := same
      exact ⟨v, sets.cell⟩
    · rw [sets.others same]
      exact h.bound member

theorem push (h : σ.Grounded names) {s : Nat} (inside : s < σ.size) :
    (σ.push (some s)).Grounded names := by
  refine ⟨h.toWellFormed.push inside, ?_, fun {t} there => ?_, fun {other} member => ?_⟩
  · rw [size_push]
    exact Nat.lt_succ_of_lt h.globals
  · rw [size_push] at there
    rw [outer_push]
    split
    case isTrue new =>
      have globals := h.globals
      simp only [reduceCtorEq, false_iff]
      omega
    case isFalse old => exact h.root (by omega)
  · rw [cell_push]
    exact h.bound member

end Store.Grounded

def Worlds.grounded (names : List String) : Worlds (· = ·) Nat :=
  { Worlds.wellFormed 1 with
    stores := fun n σ σ' => σ = σ' ∧ σ.Grounded names ∧ σ.size = n
    resolve := fun name stores =>
      (Worlds.wellFormed 1).resolve name ⟨stores.1, stores.2.1.toWellFormed, stores.2.2,
        stores.2.2 ▸ Nat.succ_le_of_lt stores.2.1.globals⟩
    define := by
      rintro n σ _ s _ name v v' ⟨rfl, grounded, rfl⟩ ⟨rfl, inside⟩ value
      have same : v = v' := (value.mono fun _ _ => And.left).eq
      subst same
      exact ⟨rfl, grounded.define inside name value, Store.size_define ..⟩
    push := by
      rintro n σ _ s _ ⟨rfl, grounded, rfl⟩ ⟨rfl, inside⟩
      exact ⟨σ.size + 1, Nat.le_succ _, ⟨rfl, grounded.push inside, Store.size_push ..⟩, rfl,
        Nat.lt_succ_self _⟩ }

def Function.IsGlobal (g : Function) : Prop := g.closure = Interpreter.globals

variable {names : List String} {c : Context} {fuel n scope : Nat} {m m' : Machine} {α : Type}

theorem Worlds.Contexts.grounded (gives : c.Gives Function.IsGlobal) :
    (Worlds.grounded names).Contexts (fun _ => False) c c := by
  apply Contexts.of_gives gives
  · exact fun same => (same.mono fun _ _ => And.left).eq
  · rintro n σ _ ⟨rfl, grounded, rfl⟩ g own
    exact ⟨rfl, own ▸ grounded.globals⟩
  · exact id

theorem Worlds.grounded_simulates (gives : c.Gives Function.IsGlobal) (names : List String)
    (fuel : Nat) : (Worlds.grounded names).ExpressionsSimulate (fun _ => False) c c fuel fuel ∧
      (Worlds.grounded names).StatementsSimulate (fun _ => False) c c fuel fuel :=
  Worlds.run_simulates faithful_eq (.grounded gives) (.inl rfl)

/-- An evaluation that keeps stores grounded from those with `n` scopes on, and has results that
suit the number of scopes at its end. -/
def Eval.Grounds (names : List String) (n : Nat) (rel : Nat → α → Prop) (x : Eval α) : Prop :=
  ∀ m : Machine, n ≤ m.store.size → m.store.Grounded names →
    (x.after m).store.Grounded names ∧ m.store.size ≤ (x.after m).store.size ∧
      ∀ a m', x m = .ok a m' → rel m'.store.size a

namespace Eval.Grounds

variable {rel : Nat → α → Prop} {x : Eval α}

theorem of_simulates {twice : Nat → α → α → Prop}
    (h : (Worlds.grounded names).Simulates (fun _ => False) n twice x x)
    (once : ∀ k a, twice k a a → rel k a) : x.Grounds names n rel := by
  intro m le before
  have follows := h m.store.size m m le ⟨⟨rfl, before, rfl⟩, rfl, rfl, rfl, rfl⟩
  rw [Eval.after]
  cases run : x m with
  | ok a m₁ =>
      rw [run] at follows
      obtain ⟨_, _, k, same, later, related, machines⟩ := follows
      cases same
      obtain ⟨-, after, rfl⟩ := machines.stores
      refine ⟨after, later, fun b m₂ same => ?_⟩
      cases same
      exact once _ _ related
  | error stop m₁ =>
      rw [run] at follows
      rcases follows with ⟨_, _, k, same, later, -, machines⟩ | ⟨short, -⟩
      · cases same
        obtain ⟨-, after, rfl⟩ := machines.stores
        exact ⟨after, later, fun b m₂ same => by cases same⟩
      · exact short.elim

theorem of_ok {a : α} (h : x.Grounds names n rel) (le : n ≤ m.store.size)
    (before : m.store.Grounded names) (done : x m = .ok a m') :
    m'.store.Grounded names ∧ m.store.size ≤ m'.store.size ∧ rel m'.store.size a := by
  obtain ⟨after, later, related⟩ := h m le before
  rw [Eval.after, done] at after later
  exact ⟨after, later, related a m' done⟩

theorem discard (h : x.Grounds names n rel) :
    (Functor.discard x : Eval PUnit).Grounds names n fun _ _ => True := by
  intro m le before
  obtain ⟨after, later, -⟩ := h m le before
  have same : (Functor.discard x : Eval PUnit).after m = x.after m := by
    unfold Eval.after
    cases run : x m with
    | ok a m₁ =>
        rw [discard_eq run]
        rfl
    | error stop m₁ =>
        rw [discard_error.mpr run]
        rfl
  rw [same]
  exact ⟨after, later, fun _ _ _ => trivial⟩

end Eval.Grounds

def Completion.Within (n : Nat) : Completion → Prop
  | .normal => True
  | .returning v => v.Within n

theorem Value.Within.mono {k : Nat} {v : Value} (h : v.Within n) (le : n ≤ k) : v.Within k :=
  Value.Alike.mono (fun _ _ within => ⟨within.1, within.2.trans_le le⟩) h

namespace Eval.Grounds

theorem completion {completion : Completion}
    (same : (Worlds.grounded names).completions n completion completion) :
    completion.Within n := by
  cases same with
  | normal => trivial
  | returning value => exact value

theorem enter {f : Function} {vs : List Value} (closure : f.closure < n)
    (within : ∀ v ∈ vs, v.Within n) :
    (Eval.enter f vs).Grounds names n fun k s => s < k := by
  have simulates : (Worlds.grounded names).Simulates (fun _ => False) n
      (Worlds.grounded names).same (Eval.enter f vs) (Eval.enter f vs) := by
    apply (Worlds.Simulates.openScope (W := Worlds.grounded names) ⟨rfl, closure⟩).bind
    · intro k s s' le same
      have values : List.Forall₂ ((Worlds.grounded names).values k) vs vs :=
        List.forall₂_same.mpr fun v member => (within v member).mono le
      apply (Worlds.Simulates.parameters faithful_eq same (List.forall₂_same.mpr fun _ _ => rfl)
        values).bind
      · intro k' _ _ le' _
        exact .pure fun k'' le'' => (Worlds.grounded names).same_mono (le'.trans le'') same
      · intro _
        exact .pure _
    · intro _
      exact (Eval.Lasts.forM fun _ => .define _ _ _).bind fun _ => .pure _
  exact of_simulates simulates fun k s same => same.2

section
variable (gives : c.Gives Function.IsGlobal)
include gives

theorem evaluate (e : Expr) (inside : scope < n) :
    (evaluate c fuel e scope).Grounds names n fun k v => v.Within k :=
  of_simulates ((Worlds.grounded_simulates gives names fuel).1 _ e e scope scope
    (.refl (fun _ => rfl) e) ⟨rfl, inside⟩) fun _ _ => id

theorem operands (es : List Expr) (inside : scope < n) :
    (es.mapM fun e => Lox.evaluate c fuel e scope).Grounds names n
      fun k vs => ∀ v ∈ vs, v.Within k := by
  have simulates : (Worlds.grounded names).Simulates (fun _ => False) n
      (fun k => List.Forall₂ ((Worlds.grounded names).values k))
      (es.mapM fun e => Lox.evaluate c fuel e scope)
      (es.mapM fun e => Lox.evaluate c fuel e scope) := by
    apply Worlds.Simulates.mapM (Expr.Alike.refls (fun _ => rfl) es)
    · intro k e e' le alike
      exact (Worlds.grounded_simulates gives names fuel).1 k e e' scope scope alike
        ⟨rfl, inside.trans_le le⟩
    · exact fun e => (evaluation_lasts c fuel).1 e scope
  exact of_simulates simulates fun k vs same v member =>
    (List.forall₂_same.mp same : ∀ v ∈ vs, (Worlds.grounded names).values k v v) v member

theorem body_simulates (k : Nat) (body body' : List Stmt) (s s' : Nat)
    (alike : List.Forall₂ (Stmt.Alike (· = ·)) body body')
    (same : (Worlds.grounded names).same k s s') :
    (Worlds.grounded names).Simulates (fun _ => False) k (Worlds.grounded names).completions
      (Eval.body c fuel body s) (Eval.body c fuel body' s') := by
  apply Worlds.Simulates.sequence alike
  · intro k' t t' le alike
    exact (Worlds.grounded_simulates gives names fuel).2 k' t t' s s' alike
      (.inl ((Worlds.grounded names).same_mono le same))
  · exact fun t => (evaluation_lasts c fuel).2 t s'

theorem body (body : List Stmt) (inside : scope < n) :
    (Eval.body c fuel body scope).Grounds names n fun k r => r.Within k :=
  of_simulates (body_simulates gives n body body scope scope (Stmt.Alike.refls (fun _ => rfl) body)
    ⟨rfl, inside⟩) fun _ _ => completion

theorem execute (s : Stmt) (inside : scope < n) :
    (execute c fuel s scope).Grounds names n fun k r => r.Within k :=
  of_simulates ((Worlds.grounded_simulates gives names fuel).2 _ s s scope scope
    (.refl (fun _ => rfl) s) (.inl ⟨rfl, inside⟩)) fun _ _ => completion

theorem program (body : List Stmt) (inside : Interpreter.globals < n) :
    (Eval.program c fuel body).Grounds names n fun _ _ => True :=
  of_simulates (Worlds.program_simulates (W := Worlds.grounded names) faithful_eq (.grounded gives)
    (.inl rfl) ⟨rfl, inside⟩ (Stmt.Alike.refls (fun _ => rfl) body)) fun _ _ => id

theorem call {callee : Value} (within : callee.Within n) (paren : Token) {vs : List Value}
    (values : ∀ v ∈ vs, v.Within n) :
    (Eval.call c (Eval.body c fuel) callee paren vs).Grounds names n fun k v => v.Within k :=
  of_simulates (Worlds.Simulates.call (W := Worlds.grounded names) faithful_eq (.grounded gives)
    (fun k body body' s s' _ => body_simulates gives k body body' s s') (body_lasts c fuel) within
    rfl (List.forall₂_same.mpr values)) fun _ _ => id

end

end Eval.Grounds

def Task.Within (n : Nat) : Task → Prop
  | .program _ => Interpreter.globals < n
  | .body _ scope | .statement _ scope | .expression _ scope => scope < n
  | .call callee _ arguments => callee.Within n ∧ ∀ v ∈ arguments, v.Within n

theorem Task.grounds (gives : c.Gives Function.IsGlobal) {t : Task} (h : t.Within n) (fuel : Nat) :
    (t.run c fuel).Grounds names n fun _ _ => True := by
  cases t with
  | program statements => exact .program gives statements h
  | body statements scope => exact (Eval.Grounds.body gives statements h).discard
  | statement s scope => exact (Eval.Grounds.execute gives s h).discard
  | expression e scope => exact (Eval.Grounds.evaluate gives e h).discard
  | call callee paren arguments => exact (Eval.Grounds.call gives h.1 paren h.2).discard

structure Moment.Grounded (names : List String) (a : Moment) : Prop where
  store : a.machine.store.Grounded names
  task : a.task.Within a.machine.store.size

namespace Moment.Grounded

variable {a b : Moment} {k : Nat}

theorem starts (gives : c.Gives Function.IsGlobal) (h : a.Grounded names) (start : Starts c a b k) :
    b.Grounded names ∧ a.machine.store.size ≤ b.machine.store.size := by
  obtain ⟨store, task⟩ := h
  cases start with
  | @top fuel before s after _ _ done =>
      obtain ⟨ends, later, -⟩ := (Eval.Grounds.program gives before task).of_ok le_rfl store done
      exact ⟨⟨ends, ends.globals⟩, later⟩
  | @item fuel before s after scope _ _ done =>
      obtain ⟨ends, later, -⟩ := (Eval.Grounds.body gives before task).of_ok le_rfl store done
      exact ⟨⟨ends, task.trans_le later⟩, later⟩
  | value => exact ⟨⟨store, task⟩, le_rfl⟩
  | @block fuel body scope m =>
      have opened : m.store.size < (m.store.push (some scope)).size := by
        rw [Store.size_push]
        exact Nat.lt_succ_self _
      exact ⟨⟨store.push task, opened⟩, opened.le⟩
  | whenTrue tested | whenFalse tested | round tested =>
      obtain ⟨ends, later, -⟩ := (Eval.Grounds.evaluate gives _ task).of_ok le_rfl store tested
      exact ⟨⟨ends, task.trans_le later⟩, later⟩
  | again tested truthy done =>
      obtain ⟨between, first, -⟩ := (Eval.Grounds.evaluate gives _ task).of_ok le_rfl store tested
      obtain ⟨ends, second, -⟩ := (Eval.Grounds.execute gives _ task).of_ok first between done
      exact ⟨⟨ends, task.trans_le (first.trans second)⟩, first.trans second⟩
  | @operand fuel e before x after scope _ _ _ operands done =>
      obtain ⟨ends, later, -⟩ := (Eval.Grounds.operands gives before task).of_ok le_rfl store done
      exact ⟨⟨ends, task.trans_le later⟩, later⟩
  | right done =>
      obtain ⟨ends, later, -⟩ := (Eval.Grounds.evaluate gives _ task).of_ok le_rfl store done
      exact ⟨⟨ends, task.trans_le later⟩, later⟩
  | @attempt fuel e paren es scope _ _ _ _ done =>
      obtain ⟨ends, later, values⟩ :=
        (Eval.Grounds.operands gives (e :: es) task).of_ok le_rfl store done
      obtain ⟨callee, arguments⟩ := List.forall_mem_cons.mp values
      exact ⟨⟨ends, callee, arguments⟩, later⟩
  | @enter fuel f paren vs m scope _ count room entered =>
      obtain ⟨callee, arguments⟩ := task
      cases callee with
      | function alike =>
          obtain ⟨ends, later, inside⟩ := (Eval.Grounds.enter alike.closure.2 arguments).of_ok
            le_rfl (m := { m with depth := m.depth + 1 }) store entered
          exact ⟨⟨ends, inside⟩, later⟩

theorem reaches (gives : c.Gives Function.IsGlobal) (h : a.Grounded names)
    (reaches : Reaches c a b k) :
    b.Grounded names ∧ a.machine.store.size ≤ b.machine.store.size := by
  induction reaches with
  | here => exact ⟨h, le_rfl⟩
  | step first _ ih =>
      obtain ⟨next, later⟩ := h.starts gives first
      obtain ⟨last, later'⟩ := ih next
      exact ⟨last, later.trans later'⟩

end Moment.Grounded

end Lox
