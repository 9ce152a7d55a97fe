import Lox.Proofs.Evaluation.Fixed
import Lox.Proofs.Evaluation.Moment

namespace Lox

open Worlds Simulates

def Stop.IsOverflow (stop : Stop) : Prop := ∃ t, stop = .error ⟨.stackOverflow, t⟩

theorem program_eq_or_cut {cut : Stop → Prop} (c c' : Context) {fuel fuel' : Nat}
    (host : c.toHost = c'.toHost) (limits : Limits cut c c') (whole : ¬ cut .exhausted)
    (fuels : Fuels cut fuel fuel') (statements : List Stmt) (m : Machine) :
    Eval.program c' fuel' statements m = Eval.program c fuel statements m ∨
      ∃ stop m', Eval.program c fuel statements m = .error stop m' ∧ cut stop ∧
        m'.output.toList <+: ((Eval.program c' fuel' statements).after m).output.toList := by
  have alike := Stmt.Alike.refls (fun _ => rfl) statements
  have simulates : (Worlds.fixed (· = ·)).Simulates cut () (fun _ _ _ => True)
      (Eval.program c fuel statements) (Eval.program c' fuel' statements) :=
    program_simulates faithful_eq (.fixed host limits whole) fuels rfl alike
  exact simulates.eq_or_cut (fun _ _ _ => rfl) m

theorem program_eq_or_short (host : Host) {d d' : Int} (le : d ≤ d') {fuel fuel' : Nat}
    (more : fuel ≤ fuel') (statements : List Stmt) (m : Machine) :
    Eval.program ⟨host, d'⟩ fuel' statements m = Eval.program ⟨host, d⟩ fuel statements m ∨
      ∃ stop m', Eval.program ⟨host, d⟩ fuel statements m = .error stop m' ∧
        (stop.IsOverflow ∨ fuel < fuel' ∧ stop = .outOfFuel) ∧ m'.output.toList <+:
          ((Eval.program ⟨host, d'⟩ fuel' statements).after m).output.toList := by
  -- Want of fuel may cut the first run short only where the second one has more of it.
  have fuels : Fuels (fun stop => stop.IsOverflow ∨ fuel < fuel' ∧ stop = .outOfFuel) fuel
      fuel' := by
    rcases Nat.lt_or_eq_of_le more with less | same
    · exact .inr ⟨more, .inr ⟨less, rfl⟩⟩
    · exact .inl same
  have limits : Limits (fun stop => stop.IsOverflow ∨ fuel < fuel' ∧ stop = .outOfFuel)
      ⟨host, d⟩ ⟨host, d'⟩ := .inr ⟨le, fun t => .inl ⟨t, rfl⟩⟩
  have whole : ¬ (Stop.exhausted.IsOverflow ∨ fuel < fuel' ∧ Stop.exhausted = .outOfFuel) := by
    rintro (⟨t, same⟩ | ⟨-, same⟩) <;> cases same
  exact program_eq_or_cut ⟨host, d⟩ ⟨host, d'⟩ rfl limits whole fuels statements m

theorem program_more_fuel {c : Context} {fuel fuel' : Nat} (more : fuel ≤ fuel')
    {statements : List Stmt} {m : Machine}
    (ends : ∀ m', Eval.program c fuel statements m ≠ .error .outOfFuel m') :
    Eval.program c fuel' statements m = Eval.program c fuel statements m := by
  have fuels : Fuels (· = .outOfFuel) fuel fuel' := .inr ⟨more, rfl⟩
  rcases program_eq_or_cut c c rfl (.inl rfl) nofun fuels statements m with
    same | ⟨stop, m', run, rfl, -⟩
  · exact same
  · exact absurd run (ends m')

/-- The built-in functions have all the stack that they need, and report no want of it. -/
def Host.LeavesRoom (h : Host) : Prop :=
  ∀ f calls arguments, (h.act f calls arguments).answer ≠ .exhausts ∧
    ∀ t, (h.act f calls arguments).answer ≠ .raises ⟨.stackOverflow, t⟩

theorem Host.LeavesRoom.not_overflowed {c : Context} (room : c.LeavesRoom) {a : Moment} {t : Token} :
    ¬ a.Overflowed c t := by
  rintro ⟨f, paren, arguments, -, -, -, raises | ⟨exhausts, -⟩⟩
  · exact (room f a.machine.calls arguments).2 t raises
  · exact (room f a.machine.calls arguments).1 exhausts

/-- With a higher limit a run ends the same way, unless it was ended by the limit; then it printed
no more than the run with the higher limit prints. It is ended by the limit exactly where a call
that passes the other checks is attempted while as many calls are active as the limit allows. -/
theorem call_limit_truncates (statements : List Stmt) (m : Machine) (host : Host) {d d' : Int}
    (le : d ≤ d') (fuel : Nat) :
    ((∀ t m', Eval.program ⟨host, d⟩ fuel statements m ≠ .error (.error ⟨.stackOverflow, t⟩) m') →
        Eval.program ⟨host, d'⟩ fuel statements m = Eval.program ⟨host, d⟩ fuel statements m) ∧
      (∀ t m', Eval.program ⟨host, d⟩ fuel statements m = .error (.error ⟨.stackOverflow, t⟩) m' →
        ∀ fuel', fuel ≤ fuel' → m'.output.toList <+:
          ((Eval.program ⟨host, d'⟩ fuel' statements).after m).output.toList) ∧
      (host.LeavesRoom →
        ∀ t, (∃ m', Eval.program ⟨host, d⟩ fuel statements m =
            .error (.error ⟨.stackOverflow, t⟩) m') ↔
          ∃ b active callee arguments, Reaches ⟨host, d⟩ ⟨.program statements, fuel, m⟩ b active ∧
            b.task = .call callee t arguments ∧ callee.arity? = some arguments.length ∧
            d ≤ ((m.depth + active : Nat) : Int)) := by
  refine ⟨fun ends => ?_, fun t m' run fuel' more => ?_, fun room t => ?_⟩
  · rcases program_eq_or_short host le (Nat.le_refl fuel) statements m with
      same | ⟨stop, m', run, ⟨t, rfl⟩ | ⟨less, -⟩, -⟩
    · exact same
    · exact absurd run (ends t m')
    · exact absurd less (Nat.lt_irrefl fuel)
  · rcases program_eq_or_short host le more statements m with
      same | ⟨stop, m'', run', -, output⟩
    · rw [Eval.after, same, run]
      exact List.prefix_refl _
    · rw [run] at run'
      cases run'
      exact output
  · refine (overflows_iff (c := ⟨host, d⟩) (a := ⟨.program statements, fuel, m⟩) t).trans ?_
    have room : Host.LeavesRoom (Context.mk host d).toHost := room
    constructor
    · rintro ⟨b, n, reaches, ⟨callee, arguments, task, arity, full⟩ | overflowed⟩
      · exact ⟨b, n, callee, arguments, reaches, task, arity, reaches.depth ▸ full⟩
      · exact absurd overflowed room.not_overflowed
    · rintro ⟨b, n, callee, arguments, reaches, task, arity, full⟩
      exact ⟨b, n, reaches, .inl ⟨callee, arguments, task, arity, reaches.depth ▸ full⟩⟩

theorem call_limit_truncates_recursion :
    let host := Host.doubling 100
    let f : Token := ⟨.identifier, "f", .nil, 1⟩
    let s : Token := ⟨.identifier, "s", .nil, 1⟩
    let twice : Token := ⟨.identifier, "twice", .nil, 1⟩
    let paren : Token := ⟨.rightParen, ")", .nil, 1⟩
    let double : Expr := .call (.variable twice) paren [.variable s]
    let recursion : List Stmt := [.funDecl f [s] [.print double,
        .expression (.call (.variable f) paren [double])],
      .expression (.call (.variable f) paren [.literal (.string "a")])]
    let start := (Interpreter.new ⟨host, 0⟩).machine
    ["aa"] <+: ((Eval.program ⟨host, 3⟩ 20 recursion).after start).output.toList ∧
      host.LeavesRoom := by
  intro host f s twice paren double recursion start
  have room : host.LeavesRoom := by
    intro g calls arguments
    change (Native.twiceBody calls arguments).answer ≠ _ ∧
      ∀ t, (Native.twiceBody calls arguments).answer ≠ _
    unfold Native.twiceBody
    split
    all_goals
      constructor
      · intro exhausts
        cases exhausts
      · intro t overflows
        cases overflows
  have short : (match Eval.program ⟨host, 2⟩ 10 recursion start with
      | .error (.error e) m' => e.cause == .stackOverflow && m'.output.toList == ["aa"]
      | .error .exhausted _ | .error .outOfFuel _ | .ok _ _ => false) = true := by decide +kernel
  split at short
  case h_1 e m' run =>
    obtain ⟨cause, t⟩ := e
    obtain ⟨overflow, output⟩ := Bool.and_eq_true_iff.mp short
    obtain rfl : cause = .stackOverflow := eq_of_beq overflow
    have more := (call_limit_truncates recursion start host (by decide : (2 : Int) ≤ 3) 10).2.1 t m'
      run 20 (by decide)
    exact ⟨eq_of_beq output ▸ more, room⟩
  all_goals cases short

end Lox
