import Lox.Proofs.Parser.Constructs
import Lox.Proofs.Parser.Reading

namespace Lox.Parser

variable {α β : Type}

structure State.Advances (s s' : State) : Prop where
  eof : s'.eof = s.eof
  rest : ∃ ts, s.rest = ts ++ s'.rest ∧ s'.position = s.position + ts.length
  errors : ∃ es, s'.errors.toList = s.errors.toList ++ es
  tooDeep : s'.tooDeep = true → s.tooDeep = true ∨ s'.errors ≠ #[]

namespace State.Advances

theorem refl (s : State) : s.Advances s :=
  ⟨rfl, ⟨[], rfl, rfl⟩, ⟨[], by simp⟩, .inl⟩

theorem trans {s m s' : State} (first : s.Advances m) (second : m.Advances s') :
    s.Advances s' := by
  obtain ⟨ts, read, moved⟩ := first.rest
  obtain ⟨us, read', moved'⟩ := second.rest
  obtain ⟨es, noted⟩ := first.errors
  obtain ⟨fs, noted'⟩ := second.errors
  refine ⟨second.eof.trans first.eof, ⟨ts ++ us, by rw [read, read', List.append_assoc], ?_⟩,
    ⟨es ++ fs, by rw [noted', noted, List.append_assoc]⟩, fun deep => ?_⟩
  · rw [moved', moved, List.length_append]
    omega
  · rcases second.tooDeep deep with deep | raised
    · rcases first.tooDeep deep with deep | raised
      · exact .inl deep
      · refine .inr fun errorless => raised (Array.toList_eq_nil_iff.mp ?_)
        rw [errorless] at noted'
        exact (List.append_eq_nil_iff.mp noted'.symm).1
    · exact .inr raised

theorem of_reads {s s' : State} {ts : List Token} (h : s.Reads ts s') : s.Advances s' := by
  have same := h.same
  exact ⟨by rw [same], ⟨ts, h.rest, by rw [same]⟩, ⟨[], by rw [same]; simp⟩,
    fun deep => .inl (by rw [same] at deep; exact deep)⟩

theorem one (t : Token) (rest : List Token) (eof : Token) (position : Nat)
    (errors : Array ParseError) (tooDeep : Bool) :
    State.Advances ⟨t :: rest, eof, position, errors, tooDeep⟩
      ⟨rest, eof, position + 1, errors, tooDeep⟩ := @of_reads _ _ [t] ⟨rfl, rfl⟩

end State.Advances

/-- A parser that only reads and notes, and stops only after an error was noted. -/
structure Orderly (p : Parser α) : Prop where
  advances {s s' : State} {a : α} : p s = .ok a s' → s.Advances s'
  stops {s s' : State} {e : ParseError} : p s = .error e s' → s.Advances s' ∧ ¬ s'.Clean

namespace Orderly

theorem outcome {p : Parser α} (h : Orderly p) (s : State) :
    s.Advances (final (p s)) ∧ ∀ e s', p s = .error e s' → ¬ s'.Clean := by
  refine ⟨?_, fun e s' run => (h.stops run).2⟩
  cases run : p s with
  | ok a m => exact h.advances run
  | error e m => exact (h.stops run).1

theorem of_ok {p : Parser α} (h : ∀ s, ∃ a s', p s = .ok a s' ∧ s.Advances s') : Orderly p := by
  refine ⟨fun {s s' a} run => ?_, fun {s s' e} run => ?_⟩
  · obtain ⟨b, m, eq, advances⟩ := h s
    rw [eq] at run
    cases run
    exact advances
  · obtain ⟨b, m, eq, advances⟩ := h s
    rw [eq] at run
    cases run

theorem pure (a : α) : Orderly (pure a : Parser α) :=
  of_ok fun s => ⟨a, s, rfl, .refl s⟩

theorem bind {p : Parser α} {f : α → Parser β} (first : Orderly p) (next : ∀ a, Orderly (f a)) :
    Orderly (p >>= f) := by
  refine ⟨fun {s s' b} run => ?_, fun {s s' e} run => ?_⟩
  · obtain ⟨a, m, read, rest⟩ := bind_ok.mp run
    exact (first.advances read).trans ((next a).advances rest)
  · simp only [Bind.bind, EStateM.bind] at run
    cases read : p s with
    | ok a m =>
        rw [read] at run
        obtain ⟨advances, unclean⟩ := (next a).stops run
        exact ⟨(first.advances read).trans advances, unclean⟩
    | error e m =>
        rw [read] at run
        cases run
        exact first.stops read

theorem accept? (kinds : Token.Kind → Bool) : Orderly (accept? kinds) := by
  refine of_ok fun s => ?_
  rcases accept?_cases kinds s with ⟨t, m, -, reads, accepted⟩ | ⟨-, accepted⟩
  · exact ⟨_, _, accepted, .of_reads reads⟩
  · exact ⟨_, _, accepted, .refl s⟩

theorem check (kinds : Token.Kind → Bool) : Orderly (check kinds) :=
  of_ok fun s => ⟨_, s, check_eq kinds s, .refl s⟩

theorem atEnd : Orderly atEnd := of_ok fun s => ⟨_, s, rfl, .refl s⟩

theorem remaining : Orderly remaining := of_ok fun s => ⟨_, s, rfl, .refl s⟩

theorem position : Orderly position := of_ok fun s => ⟨_, s, rfl, .refl s⟩

theorem peek : Orderly peek := of_ok fun s => ⟨_, s, rfl, .refl s⟩

theorem note (cause : ParseError.Cause) (t : Token) (index : Nat) :
    Orderly (note cause t index) :=
  of_ok fun _ => ⟨(), _, rfl, rfl, ⟨[], rfl, rfl⟩, ⟨[⟨cause, t, index⟩], Array.toList_push⟩, .inl⟩

theorem noteHere (cause : ParseError.Cause) : Orderly (noteHere cause) :=
  peek.bind fun t => position.bind fun index => .note cause t index

theorem fail (cause : ParseError.Cause) : Orderly (fail cause : Parser α) := by
  refine ⟨fun run => absurd run fail_ne_ok, fun {s s' e} run => ?_⟩
  cases run
  exact ⟨(noteHere cause).advances rfl, noteHere_unclean rfl⟩

theorem failTooDeep : Orderly (failTooDeep : Parser α) := by
  refine ⟨fun run => absurd run failTooDeep_ne_ok, fun {s s' e} run => ?_⟩
  obtain ⟨rest, eof, position, errors, tooDeep⟩ := s
  cases tooDeep with
  | true =>
      cases run
      exact ⟨.refl _, by simp [State.Clean]⟩
  | false =>
      cases run
      exact ⟨⟨rfl, ⟨[], rfl, rfl⟩, ⟨_, Array.toList_push⟩, fun _ => .inr (by simp)⟩,
        by simp [State.Clean]⟩

theorem skipStatement_eq (last : Token) (rest : List Token) (skipped : Nat) :
    ∃ ts, rest = ts ++ (skipStatement last rest skipped).1 ∧
      (skipStatement last rest skipped).2 = skipped + ts.length := by
  induction rest generalizing last skipped with
  | nil => exact ⟨[], rfl, rfl⟩
  | cons t rest ih =>
      rw [skipStatement]
      split
      · exact ⟨[], rfl, rfl⟩
      · obtain ⟨ts, read, moved⟩ := ih t (skipped + 1)
        refine ⟨t :: ts, congrArg (t :: ·) read, ?_⟩
        rw [moved, List.length_cons]
        omega

theorem skip_advances (s : State) (last : Token) :
    s.Advances { s with
      rest := (skipStatement last s.rest s.position).1
      position := (skipStatement last s.rest s.position).2 } := by
  obtain ⟨ts, read, moved⟩ := skipStatement_eq last s.rest s.position
  exact ⟨rfl, ⟨ts, read, moved⟩, ⟨[], by simp⟩, .inl⟩

theorem synchronize : Orderly synchronize := by
  refine of_ok fun s => ⟨(), _, rfl, ?_⟩
  obtain ⟨rest, eof, position, errors, tooDeep⟩ := s
  cases rest with
  | nil => exact .refl _
  | cons t rest => exact (State.Advances.one ..).trans (skip_advances _ t)

theorem synchronize_clean {s s' : State} {u : Unit} (h : Parser.synchronize s = .ok u s') :
    s.Clean ↔ s'.Clean := by
  obtain ⟨rest, eof, position, errors, tooDeep⟩ := s
  cases rest <;> cases h <;> exact .rfl

end Orderly

end Lox.Parser
