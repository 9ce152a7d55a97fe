import Lox.Proofs.CallDepth
import Lox.Proofs.Evaluation.Grounded
import Lox.Proofs.Evaluation.Reachable

namespace Lox

/-- The machines that occur in the course of work: those that it goes through, and those between
the bindings of the parameters of a call. -/
inductive Occurs (c : Context) (a : Moment) : Machine → Prop
  | passes {m n} (passes : Passes c a m n) : Occurs c a m
  | binds {f paren fuel m n scope m'} {arguments bound : List Value}
      (reaches : Reaches c a ⟨.call (.function f) paren arguments, fuel, m⟩ n)
      (arity : arguments.length = f.params.length) (room : m.depth < c.limit)
      (first : bound <+: arguments)
      (entered : Eval.enter f bound { m with depth := m.depth + 1 } = .ok scope m') :
      Occurs c a m'

/-- The values that are held on a machine in the course of work. -/
inductive Held (c : Context) (a : Moment) : Machine → Value → Prop
  /-- Operands are held while the next one is evaluated. -/
  | operand {fuel e before x after scope m₀ vs m₁ n m v}
      (reaches : Reaches c a ⟨.expression e scope, fuel + 1, m₀⟩ n)
      (operands : e.operands = before ++ x :: after)
      (done : before.mapM (fun e => evaluate c fuel e scope) m₀ = .ok vs m₁) (member : v ∈ vs)
      (meanwhile : Occurs c ⟨.expression x scope, fuel, m₁⟩ m) : Held c a m v
  | call {callee paren arguments fuel m₀ n m v}
      (reaches : Reaches c a ⟨.call callee paren arguments, fuel, m₀⟩ n)
      (member : v ∈ callee :: arguments)
      (meanwhile : Occurs c ⟨.call callee paren arguments, fuel, m₀⟩ m) : Held c a m v
  | value {e scope fuel m₀ n m v} (reaches : Reaches c a ⟨.expression e scope, fuel, m₀⟩ n)
      (done : evaluate c fuel e scope m₀ = .ok v m) : Held c a m v
  | answer {callee paren arguments fuel m₀ n m v}
      (reaches : Reaches c a ⟨.call callee paren arguments, fuel, m₀⟩ n)
      (done : Eval.call c (Eval.body c fuel) callee paren arguments m₀ = .ok v m) : Held c a m v
  | returned {s scope fuel m₀ n m v} (reaches : Reaches c a ⟨.statement s scope, fuel, m₀⟩ n)
      (done : execute c fuel s scope m₀ = .ok (.returning v) m) : Held c a m v
  | unwound {body scope fuel m₀ n m v} (reaches : Reaches c a ⟨.body body scope, fuel, m₀⟩ n)
      (done : Eval.body c fuel body scope m₀ = .ok (.returning v) m) : Held c a m v

variable {names : List String} {c : Context} {a : Moment} {n : Nat} {m : Machine} {v : Value}

theorem Value.within_iff : v.Within n ↔ v.Made fun f => f.closure < n := by
  constructor
  · intro within
    have visible : v.Alike (· = ·) (fun s s' => s = s' ∧ ¬ n ≤ s) v :=
      Value.Alike.mono (fun _ _ h => ⟨h.1, Nat.not_le.mpr h.2⟩) within
    exact visible.made.mono fun _ => Nat.not_le.mp
  · intro made
    have visible : v.Made fun f => ¬ n ≤ f.closure := made.mono fun _ => Nat.not_le.mpr
    exact Value.Alike.mono (fun _ _ h => ⟨h.1, Nat.not_le.mp h.2⟩) visible.alike

section
variable (gives : c.Gives Function.IsGlobal)
include gives

theorem Eval.Grounds.inside {callee : Value} {fuel : Nat} (within : callee.Within n) (paren : Token)
    {vs : List Value} (values : ∀ v ∈ vs, v.Within n) :
    (Eval.inside c (Eval.body c fuel) callee paren vs).Grounds names n fun _ _ => True := by
  have same : List.Forall₂ ((Worlds.grounded names).values n) vs vs := List.forall₂_same.mpr values
  cases callee with
  | function f =>
      cases within with
      | function alike =>
          have simulates := Worlds.Simulates.applyFunction faithful_eq
            (fun k body body' s s' _ => body_simulates gives k body body' s s') (body_lasts c fuel)
            alike same
          have inside : (Worlds.grounded names).Simulates (fun _ => False) n (fun _ _ _ => True)
              (Returned.value <$> Eval.applyFunction (Eval.body c fuel) f vs)
              (Returned.value <$> Eval.applyFunction (Eval.body c fuel) f vs) :=
            simulates.map (fun _ _ _ _ => trivial) fun le => Worlds.values_mono le
          exact of_simulates inside fun _ _ => id
  | native f =>
      have simulates := Worlds.Simulates.applyNative (.grounded gives) f same
      exact of_simulates simulates fun _ _ _ => trivial
  | nil | bool | number | string =>
      have simulates : (Worlds.grounded names).Simulates (fun _ => False) n (fun _ _ _ => True)
          (Eval.fail .notCallable paren : Eval Returned) (Eval.fail .notCallable paren : Eval Returned) :=
        .fail rfl
      exact of_simulates simulates fun _ _ => id

theorem Occurs.grounded (h : a.Grounded names) (occurs : Occurs c a m) :
    m.store.Grounded names ∧ a.machine.store.size ≤ m.store.size := by
  cases occurs with
  | passes passes =>
      cases passes with
      | begins reaches =>
          obtain ⟨moment, later⟩ := h.reaches gives reaches
          exact ⟨moment.store, later⟩
      | ends reaches =>
          obtain ⟨moment, later⟩ := h.reaches gives reaches
          obtain ⟨ends, later', -⟩ := Task.grounds gives moment.task _ _ le_rfl moment.store
          exact ⟨ends, later.trans later'⟩
      | enters reaches =>
          obtain ⟨moment, later⟩ := h.reaches gives reaches
          exact ⟨moment.store, later⟩
      | @leaves callee paren fuel m₀ n arguments reaches =>
          obtain ⟨moment, later⟩ := h.reaches gives reaches
          have keeps : (Eval.inside c (Eval.body c fuel) callee paren arguments).Grounds names
              m₀.store.size fun _ _ => True := .inside gives moment.task.1 paren moment.task.2
          obtain ⟨ends, later', -⟩ := keeps { m₀ with depth := m₀.depth + 1 } le_rfl moment.store
          exact ⟨ends, later.trans later'⟩
  | @binds f paren fuel m₀ n scope _ arguments bound reaches arity room first entered =>
      obtain ⟨moment, later⟩ := h.reaches gives reaches
      obtain ⟨callee, within⟩ := moment.task
      cases callee with
      | function alike =>
          have keeps : (Eval.enter f bound).Grounds names m₀.store.size fun k s => s < k :=
            .enter alike.closure.2 fun v member => within v (first.subset member)
          obtain ⟨ends, later', -⟩ := keeps.of_ok (m := { m₀ with depth := m₀.depth + 1 }) le_rfl
            moment.store entered
          exact ⟨ends, later.trans later'⟩

theorem Held.within (h : a.Grounded names) (held : Held c a m v) : v.Within m.store.size := by
  cases held with
  | @operand fuel e before x after scope m₀ vs m₁ n _ _ reaches operands done member meanwhile =>
      obtain ⟨⟨store, inside⟩, -⟩ := h.reaches gives reaches
      obtain ⟨between, later, values⟩ :=
        (Eval.Grounds.operands gives before inside).of_ok le_rfl store done
      have next : Moment.Grounded names ⟨.expression x scope, fuel, m₁⟩ :=
        ⟨between, inside.trans_le later⟩
      exact (values v member).mono (meanwhile.grounded gives next).2
  | call reaches member meanwhile =>
      obtain ⟨moment, -⟩ := h.reaches gives reaches
      have later := (meanwhile.grounded gives moment).2
      rcases List.mem_cons.mp member with rfl | argument
      · exact moment.task.1.mono later
      · exact (moment.task.2 v argument).mono later
  | value reaches done =>
      obtain ⟨⟨store, inside⟩, -⟩ := h.reaches gives reaches
      exact ((Eval.Grounds.evaluate gives _ inside).of_ok le_rfl store done).2.2
  | @answer callee paren arguments fuel m₀ n _ _ reaches done =>
      obtain ⟨⟨store, callee, arguments⟩, -⟩ := h.reaches gives reaches
      exact ((Eval.Grounds.call gives callee paren arguments).of_ok le_rfl store done).2.2
  | returned reaches done =>
      obtain ⟨⟨store, inside⟩, -⟩ := h.reaches gives reaches
      exact ((Eval.Grounds.execute gives _ inside).of_ok le_rfl store done).2.2
  | unwound reaches done =>
      obtain ⟨⟨store, inside⟩, -⟩ := h.reaches gives reaches
      exact ((Eval.Grounds.body gives _ inside).of_ok le_rfl store done).2.2

end

end Lox
