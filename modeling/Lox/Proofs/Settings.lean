import Lox.Proofs.CallDepth

namespace Lox

namespace Settings

/-- The greatest call depth of which the stack frames can be set aside. -/
def deepest : Int := 33554416

def Fits (s : Settings) : Prop := frameBudget s.maxCallDepth ≤ maxFrameBudget

instance (s : Settings) : Decidable s.Fits := inferInstanceAs (Decidable (_ ≤ _))

theorem maxCallDepth_pos (s : Settings) : 1 ≤ s.maxCallDepth := by
  unfold maxCallDepth
  split
  · split
    · assumption
    · decide
  · decide

theorem frameBudget_le_iff (depth : Int) :
    frameBudget depth ≤ maxFrameBudget ↔ depth ≤ deepest := by
  unfold frameBudget maxFrameBudget deepest
  omega

theorem fits_iff (s : Settings) :
    s.Fits ↔ ∀ n, s.callDepth.bind integer? = some n → n ≤ deepest := by
  have default : defaultCallDepth ≤ deepest := by decide
  rw [Fits, frameBudget_le_iff, maxCallDepth]
  cases spelled : s.callDepth.bind integer? with
  | none => simpa using default
  | some n =>
      simp only [Option.some.injEq, forall_eq']
      split
      · rfl
      · rename_i negative
        have least : 0 ≤ deepest := by decide
        exact iff_of_true default (by omega)

end Settings

namespace Session

variable {α : Type} {i : Interpreter} {source : String}

/-- The work is not begun for want of stack frames. -/
def Refuses (work : Session α) (i : Interpreter) : Prop :=
  ∃ j, work i = .error .depthTooLarge j ∧ j.machine = i.machine

def Admits (work : Session α) (i : Interpreter) : Prop := ∀ j, work i ≠ .error .depthTooLarge j

theorem admits_onMachine (fits : Settings.frameBudget i.context.limit ≤ Settings.maxFrameBudget)
    (work : Context → Eval α) : Admits (onMachine work) i := by
  intro j
  unfold onMachine
  rw [if_neg (not_lt.mpr fits)]
  cases work i.context { i.machine with depth := 0 } with
  | ok a m => exact nofun
  | error stop m => cases stop <;> exact nofun

theorem refuses_onMachine (large : Settings.maxFrameBudget < Settings.frameBudget i.context.limit)
    (work : Context → Eval α) : Refuses (onMachine work) i :=
  ⟨i, if_pos large, rfl⟩

theorem error_of_outcome {work : Session Unit} {failure : Failure} {j : Interpreter}
    (fails : work i = .error failure j) : outcome (work i) = (.error failure, j.machine) := by
  rw [fails]
  rfl

theorem admits_run (fits : Settings.frameBudget i.context.limit ≤ Settings.maxFrameBudget)
    (fuel : Nat) (source : String) : Admits (run fuel source) i := by
  intro j fails
  have ends := error_of_outcome fails
  cases compiled : Program.compile i.context.nesting source with
  | error errors =>
      rw [outcome_run_rejected compiled] at ends
      cases ends
  | ok body =>
      rw [outcome_run compiled, if_neg (not_lt.mpr fits)] at ends
      cases done : ending fuel body i with
      | ok u m =>
          rw [done] at ends
          cases ends
      | error stop m =>
          rw [done] at ends
          cases stop <;> cases ends

theorem refuses_run (large : Settings.maxFrameBudget < Settings.frameBudget i.context.limit)
    {body : List Stmt} (compiled : Program.compile i.context.nesting source = .ok body)
    (fuel : Nat) : Refuses (run fuel source) i := by
  have ends : outcome (run fuel source i) = (.error .depthTooLarge, i.machine) := by
    rw [outcome_run compiled, if_pos large]
  cases done : run fuel source i with
  | ok u j =>
      rw [done] at ends
      cases ends
  | error failure j =>
      rw [done] at ends
      obtain ⟨same, kept⟩ := Prod.ext_iff.mp ends
      cases same
      exact ⟨j, done, kept⟩

end Session

/-- The stack frames that a setting asks for can be set aside unless it spells an integer greater
than `deepest`. If they can, nothing fails for want of them; otherwise nothing is ever begun. -/
theorem Settings.runs_iff (s : Settings) :
    1 ≤ s.maxCallDepth ∧ 1 ≤ frameBudget s.maxCallDepth ∧
      (s.Fits ↔ ∀ n, s.callDepth.bind integer? = some n → n ≤ deepest) ∧
      ∀ host past i, (Interpreter.new ⟨host, s.maxCallDepth⟩).Ran past i → ∀ fuel,
        (s.Fits → (∀ body, (Session.interpret fuel body).Admits i) ∧
          (∀ e, (Session.evaluateGlobal fuel e).Admits i) ∧
          ∀ source, (Session.run fuel source).Admits i) ∧
        (¬ s.Fits → (∀ body, (Session.interpret fuel body).Refuses i) ∧
          (∀ e, (Session.evaluateGlobal fuel e).Refuses i) ∧
          ∀ source body, Program.compile host.nesting source = .ok body →
            (Session.run fuel source).Refuses i) := by
  have positive := s.maxCallDepth_pos
  refine ⟨positive, by unfold frameBudget; omega, s.fits_iff,
    fun host past i ran fuel => ?_⟩
  have context : i.context = ⟨host, s.maxCallDepth⟩ := ran.leads.context
  have limit : i.context.limit = s.maxCallDepth := congrArg Context.limit context
  have nesting : i.context.nesting = host.nesting := congrArg (·.nesting) context
  unfold Fits
  rw [← limit, not_le]
  refine ⟨fun fits => ⟨fun body j => ?_, fun e => Session.admits_onMachine fits _,
    Session.admits_run fits fuel⟩, fun large => ⟨fun body => ?_,
      fun e => Session.refuses_onMachine large _, fun source body compiled =>
        Session.refuses_run large (nesting ▸ compiled) fuel⟩⟩
  · rw [Session.interpret_eq]
    exact Session.admits_onMachine (i := { i with log := i.log.push _ }) fits _ j
  · obtain ⟨j, refused, kept⟩ := Session.refuses_onMachine
      (i := { i with log := i.log.push (.interpreting body.length) }) large
      fun c => Eval.program c fuel body
    exact ⟨j, refused, kept⟩

theorem Settings.runs_iff_deepest :
    let s : Settings := { callDepth := some "33554416" }
    let t : Settings := { callDepth := some "33554417" }
    let i := Interpreter.new ⟨Host.doubling 100, s.maxCallDepth⟩
    let j := Interpreter.new ⟨Host.doubling 100, t.maxCallDepth⟩
    s.Fits ∧ (Session.interpret 5 []).Admits i ∧ ¬ t.Fits ∧ (Session.interpret 5 []).Refuses j := by
  intro s t i j
  have fits : s.Fits := by decide
  have large : ¬ t.Fits := by decide
  exact ⟨fits, (((runs_iff s).2.2.2 _ [] i .start 5).1 fits).1 [], large,
    (((runs_iff t).2.2.2 _ [] j .start 5).2 large).1 []⟩

theorem Settings.refuses_billion :
    let s : Settings := { callDepth := some "1000000000" }
    let i := Interpreter.new ⟨Host.doubling 100, s.maxCallDepth⟩
    s.maxCallDepth = 1000000000 ∧ maxFrameBudget < frameBudget s.maxCallDepth ∧
      Program.compile 100 "print nil;" = .ok [.print (.literal .nil)] ∧
      (Session.run 5 "print nil;").Refuses i := by
  intro s i
  have depth : s.maxCallDepth = 1000000000 := by decide
  have large : maxFrameBudget < frameBudget s.maxCallDepth := by
    rw [depth]
    decide
  have compiled : Program.compile 100 "print nil;" = .ok [.print (.literal .nil)] := rfl
  have limit : i.context.limit = s.maxCallDepth := rfl
  refine ⟨depth, large, compiled, Session.refuses_run ?_ compiled 5⟩
  rw [limit]
  exact large

end Lox
