import Lox.Proofs.Parser.Consumption

/-!
The loops of the parser are given the tokens that are left as a bound. Here each is compared with
the loop that repeats its round for as long as the round goes on: that loop ends, in the state in
which the one with the bound does.
-/

namespace Lox.Parser

variable {α σ : Type}

/-- Repeating a round from `a` on, which goes on with another value or has a result, ends with `r`.
`rounds` of them go on. -/
inductive Loop (round : σ → Parser (σ ⊕ α)) :
    (rounds : Nat) → σ → State → EStateM.Result ParseError State α → Prop
  | exits {a : σ} {b : α} {s s' : State} (last : round a s = .ok (.inr b) s') :
      Loop round 0 a s (.ok b s')
  | fails {a : σ} {e : ParseError} {s s' : State} (stop : round a s = .error e s') :
      Loop round 0 a s (.error e s')
  | again {n : Nat} {a a' : σ} {s m : State} {r : EStateM.Result ParseError State α}
      (goes : round a s = .ok (.inl a') m) (rest : Loop round n a' m r) : Loop round (n + 1) a s r

theorem Loop.exit {round : σ → Parser (σ ⊕ α)} {n : Nat} {a : σ} {s : State}
    {r : EStateM.Result ParseError State α} {property : State → Prop} (h : Loop round n a s r)
    (total : ∀ a s, ∃ next m, round a s = .ok next m)
    (ends : ∀ {a s b m}, round a s = .ok (.inr b) m → property m) :
    ∃ b s', r = .ok b s' ∧ property s' := by
  induction h with
  | exits last => exact ⟨_, _, rfl, ends last⟩
  | @fails a e s s' stop =>
      obtain ⟨next, m, run⟩ := total a s
      rw [stop] at run
      cases run
  | again _ _ ih => exact ih

theorem Loop.last {round : σ → Parser (σ ⊕ α)} {a : σ} {s : State} {p : Parser α}
    (same : round a s = (Sum.inr <$> p) s) : Loop round 0 a s (p s) := by
  cases run : p s with
  | ok b s' => exact .exits (same.trans (map_eq run))
  | error e s' =>
      rw [map_eq_pure_bind, bind_stop run] at same
      exact .fails same

/-- A loop with a bound that repeats a round, each of which takes a token to go on. -/
structure Bounds (round : σ → Parser (σ ⊕ α)) (bounded : List Token → σ → Parser α) : Prop where
  step (t : Token) (bound : List Token) (a : σ) :
    bounded (t :: bound) a = round a >>= Sum.elim (bounded bound) pure
  spent {a : σ} {s : State} : s.rest = [] → Loop round 0 a s (bounded [] a s)
  takes {a a' : σ} {s m : State} :
    round a s = .ok (.inl a') m → m.rest.length < s.rest.length

theorem Bounds.loop {round : σ → Parser (σ ⊕ α)} {bounded : List Token → σ → Parser α}
    (h : Bounds round bounded) {bound : List Token} {s : State}
    (room : s.rest.length ≤ bound.length) (a : σ) :
    ∃ n ≤ s.rest.length, Loop round n a s (bounded bound a s) := by
  induction bound generalizing a s with
  | nil => exact ⟨0, Nat.zero_le _, h.spent (List.eq_nil_of_length_eq_zero (Nat.le_zero.mp room))⟩
  | cons t bound ih =>
      rw [h.step]
      cases run : round a s with
      | error e m =>
          rw [bind_stop run]
          exact ⟨0, Nat.zero_le _, .fails run⟩
      | ok next m =>
          rw [bind_eq run]
          cases next with
          | inr b => exact ⟨0, Nat.zero_le _, .exits run⟩
          | inl a' =>
              have less := h.takes run
              rw [List.length_cons] at room
              obtain ⟨n, few, rest⟩ := ih (s := m) (by omega) a'
              exact ⟨n + 1, by omega, .again run rest⟩

section
variable {p : Precedence} {operand argument : Parser Expr}

def chainRound (p : Precedence) (operand : Parser Expr) (left : Expr) : Parser (Expr ⊕ Expr) := do
  match ← accept? p.operators with
  | none => return .inr left
  | some operator => return .inl (p.join left operator (← operand))

theorem chainAfter_bounds (h : Accounted operand) :
    Bounds (chainRound p operand) (chainAfter p operand) := by
  refine ⟨fun t bound left => ?_, fun {left s} ended => ?_, fun {left a' s m} goes => ?_⟩
  · rw [chainAfter, chainRound, bind_assoc]
    congr 1
    funext o
    cases o with
    | none => rfl
    | some operator => simp only [bind_assoc, pure_bind, Sum.elim_inl]
  · rw [chainAfter_ended ended]
    exact .exits (bind_eq (accept?_stays (by rw [ended]; rfl)))
  · rcases option_ok goes with ⟨t, m', -, reads, rest⟩ | ⟨-, rest⟩
    · rw [reads.length_one]
      obtain ⟨right, m'', read, same⟩ := bind_ok.mp rest
      cases same
      exact Nat.lt_succ_of_le (h.orderly.advances read).length_le
    · cases rest

def callRound (argument : Parser Expr) (callee : Expr) : Parser (Expr ⊕ Expr) := do
  if ← accept .leftParen then
    let arguments ← commaList .argument argument
    let paren ← expect .rightParen (.missingMark .rightParen .afterArguments)
    return .inl (.call callee paren arguments)
  else
    return .inr callee

theorem callsAfter_bounds (h : Accounted argument) :
    Bounds (callRound argument) (callsAfter argument) := by
  refine ⟨fun t bound callee => ?_, fun {callee s} ended => ?_, fun {callee a' s m} goes => ?_⟩
  · rw [callsAfter, callRound, bind_assoc]
    congr 1
    funext o
    cases o with
    | false => rfl
    | true => simp only [if_true, bind_assoc, pure_bind, Sum.elim_inl]
  · rw [callsAfter_ended ended]
    exact .exits (bind_eq (accept_stays (by rw [ended]; rfl)))
  · rcases branch_ok goes with ⟨t, m', -, reads, rest⟩ | ⟨-, rest⟩
    · rw [reads.length_one]
      have inside := (Accounted.commaList .argument h).bind fun args =>
        (Accounted.expect .rightParen (.missingMark .rightParen .afterArguments)).bind fun paren =>
        .pure (Sum.inl (Expr.call callee paren args) : Expr ⊕ Expr)
      exact Nat.lt_succ_of_le (inside.orderly.advances rest).length_le
    · cases rest

end

def itemAfter (item : Parser α) (done : List α) : Parser (List α ⊕ List α) := do
  let done := (← item) :: done
  if ← accept .comma then return .inl done else return .inr done.reverse

def itemRound (role : ParseError.Role) (item : Parser α) (done : List α) :
    Parser (List α ⊕ List α) := do
  if ParseError.maxListLength ≤ done.length then noteHere (.tooMany role)
  itemAfter item done

section
variable {role : ParseError.Role} {item : Parser α}

theorem itemRound_eq (done : List α) : itemRound role item done =
    if 255 ≤ done.length then (do noteHere (.tooMany role); itemAfter item done)
    else itemAfter item done := rfl

theorem commaRound_cons (t : Token) (bound : List Token) (done : List α) :
    commaRound role item (t :: bound) done.length done = itemAfter item done >>=
      Sum.elim (fun done => commaListAfter role item bound done.length done) pure := by
  rw [commaRound, itemAfter, bind_assoc]
  congr 1
  funext a
  dsimp only
  rw [bind_assoc]
  congr 1
  funext comma
  cases comma <;> rfl

variable (h : Accounted item)
include h

theorem itemAfter_takes {done done' : List α} {s m : State}
    (goes : itemAfter item done s = .ok (.inl done') m) : m.rest.length < s.rest.length := by
  obtain ⟨a, m', read, rest⟩ := bind_ok.mp goes
  have before := (h.orderly.advances read).length_le
  rcases branch_ok rest with ⟨t, m'', -, reads, same⟩ | ⟨-, same⟩
  · cases same
    have taken := reads.length_one
    omega
  · cases same

theorem itemAfter_ended {s : State} (ended : s.rest = []) (count : Nat) (done : List α) :
    itemAfter item done s = (Sum.inr <$> commaRound role item [] count done) s := by
  cases read : item s with
  | error e m =>
    rw [itemAfter, bind_stop read, commaRound, map_bind, bind_stop read]
  | ok a m =>
      have ended : m.rest = [] := by
        have less := (h.orderly.advances read).length_le
        rw [ended] at less
        exact List.eq_nil_of_length_eq_zero (Nat.le_zero.mp less)
      rw [itemAfter, bind_eq read, bind_eq (accept_stays (by rw [ended]; rfl)), commaRound, map_bind,
        bind_eq read]
      rfl

theorem itemRound_ended {s : State} (ended : s.rest = []) (done : List α) :
    itemRound role item done s = (Sum.inr <$> commaListAfter role item [] done.length done) s := by
  rw [itemRound_eq, commaListAfter_eq]
  split
  · have noted : noteHere (.tooMany role) s = .ok () { s with
        errors := s.errors.push ⟨.tooMany role, s.rest.headD s.eof, s.position⟩ } := rfl
    rw [map_bind, bind_eq noted, bind_eq noted]
    refine itemAfter_ended h ?_ done.length done
    exact ended
  · exact itemAfter_ended h ended done.length done

theorem commaListAfter_bounds : Bounds (itemRound role item) fun bound done =>
    commaListAfter role item bound done.length done := by
  refine ⟨fun t bound done => ?_, fun {done s} ended => .last (itemRound_ended h ended done),
    fun {done a' s m} goes => ?_⟩
  · rw [commaListAfter_eq, itemRound_eq, commaRound_cons]
    split
    · rw [bind_assoc]
    · rfl
  · rw [itemRound_eq] at goes
    split at goes
    · obtain ⟨u, m', noted, rest⟩ := bind_ok.mp goes
      cases noted
      have less := itemAfter_takes h rest
      exact less
    · exact itemAfter_takes h goes

end

def declarationRound (declaration : Parser (Option Stmt)) (done : List Stmt) :
    Parser (List Stmt ⊕ List Stmt) := do
  if ← check (· == .rightBrace) then return .inr done.reverse
  if ← atEnd then return .inr done.reverse
  match ← declaration with
  | some item => return .inl (item :: done)
  | none => return .inl done

theorem declarationsAfter_bounds {d : Parser (Option Stmt)} (h : Proceeds d) :
    Bounds (declarationRound d) (declarationsAfter d) := by
  refine ⟨fun t bound done => ?_, fun {done s} ended => ?_, fun {done a' s m} goes => ?_⟩
  · rw [declarationsAfter, declarationRound, bind_assoc]
    congr 1
    funext closes
    cases closes with
    | true => rfl
    | false =>
        simp only [Bool.false_eq_true, if_false, bind_assoc]
        congr 1
        funext ends
        cases ends with
        | true => rfl
        | false =>
            simp only [Bool.false_eq_true, if_false, bind_assoc]
            congr 1
            funext o
            cases o <;> rfl
  · rw [declarationsAfter_ended ended]
    obtain ⟨rest, eof, position, errors, tooDeep⟩ := s
    cases ended
    exact .exits rfl
  · rw [declarationRound, bind_eq (check_eq _ s)] at goes
    split at goes
    · cases goes
    rw [bind_eq (atEnd_eq s)] at goes
    split at goes
    · cases goes
    rename_i more
    obtain ⟨o, m', read, same⟩ := bind_ok.mp goes
    have less := h.less read (by simpa using more)
    cases o <;> cases same <;> exact less

def programRound (depth : Nat) (done : List (Option Stmt)) :
    Parser (List (Option Stmt) ⊕ List (Option Stmt)) := do
  if ← atEnd then return .inr done.reverse
  return .inl ((← declaration depth false) :: done)

theorem programAfter_bounds (depth : Nat) : Bounds (programRound depth) (programAfter depth) := by
  refine ⟨fun t bound done => ?_, fun {done s} ended => ?_, fun {done a' s m} goes => ?_⟩
  · rw [programAfter, programRound, bind_assoc]
    congr 1
    funext ends
    cases ends with
    | true => rfl
    | false => simp only [Bool.false_eq_true, if_false, bind_assoc, pure_bind, Sum.elim_inl]
  · rw [programAfter_ended ended]
    obtain ⟨rest, eof, position, errors, tooDeep⟩ := s
    cases ended
    exact .exits rfl
  · rw [programRound, bind_eq (atEnd_eq s)] at goes
    split at goes
    · cases goes
    · rename_i more
      obtain ⟨item, m', read, same⟩ := bind_ok.mp goes
      cases same
      exact (Proceeds.declaration depth false).less read (by simpa using more)

end Lox.Parser
