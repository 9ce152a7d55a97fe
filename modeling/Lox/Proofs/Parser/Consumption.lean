import Lox.Proofs.Parser.Look

namespace Lox.Parser

variable {α β : Type}

theorem State.Advances.length_le {s s' : State} (h : s.Advances s') :
    s'.rest.length ≤ s.rest.length := by
  obtain ⟨ts, read, -⟩ := h.rest
  simp [read]

def construct : (depth : Nat) → (inFunction : Bool) → Parser Stmt
  | 0, _ => failTooDeep
  | depth + 1, inFunction => do
      if ← accept .varWord then varDeclaration (expression depth .assignment)
      else if ← accept .funWord then funDeclaration (declaration depth true)
      else statement depth inFunction

theorem declaration_eq (depth : Nat) (inFunction : Bool) :
    declaration depth inFunction = recover (construct depth inFunction) := by
  cases depth <;> rfl

theorem Accounted.construct (depth : Nat) (inFunction : Bool) :
    Accounted (construct depth inFunction) := by
  cases depth with
  | zero => exact failTooDeep
  | succ depth =>
      exact declarationWith (expression depth _) (declaration_statement depth true).1
        (declaration_statement depth inFunction).2

theorem declaration_total (depth : Nat) (inFunction : Bool) (s : State) :
    ∃ item s', declaration depth inFunction s = .ok item s' := by
  rw [declaration_eq]
  cases read : construct depth inFunction s with
  | ok a m => exact ⟨_, _, recover_of_ok read⟩
  | error e m =>
      obtain ⟨m', -, recovered⟩ := recover_of_error read
      exact ⟨_, _, recovered⟩

theorem programAfter_total (depth : Nat) (bound : List Token) (s : State) :
    ∃ items s', ∀ done, programAfter depth bound done s = .ok (done.reverse ++ items) s' := by
  induction bound generalizing s with
  | nil => exact ⟨[], s, fun done => by rw [List.append_nil]; rfl⟩
  | cons t bound ih =>
      by_cases ended : s.rest.isEmpty = true
      · refine ⟨[], s, fun done => ?_⟩
        rw [programAfter, bind_eq (atEnd_eq s), if_pos ended, List.append_nil]
        rfl
      · obtain ⟨item, m, read⟩ := declaration_total depth false s
        obtain ⟨items, s', others⟩ := ih m
        refine ⟨item :: items, s', fun done => ?_⟩
        rw [programAfter, bind_eq (atEnd_eq s), if_neg ended, bind_eq read, others,
          List.reverse_cons, List.append_assoc]
        rfl

section
variable {s : State} (ended : s.rest = [])
include ended

theorem chainAfter_ended {p : Precedence} {operand : Parser Expr} {bound : List Token}
    {left : Expr} : chainAfter p operand bound left s = .ok left s := by
  cases bound with
  | nil => rfl
  | cons t bound => exact (bind_eq (accept?_stays (by rw [ended]; rfl))).trans rfl

theorem callsAfter_ended {argument : Parser Expr} {bound : List Token} {callee : Expr} :
    callsAfter argument bound callee s = .ok callee s := by
  cases bound with
  | nil => rfl
  | cons t bound => exact (bind_eq (accept_stays (by rw [ended]; rfl))).trans rfl

theorem declarationsAfter_ended {d : Parser (Option Stmt)} {bound : List Token}
    {done : List Stmt} : declarationsAfter d bound done s = .ok done.reverse s := by
  obtain ⟨rest, eof, position, errors, tooDeep⟩ := s
  cases ended
  cases bound <;> rfl

theorem programAfter_ended {depth : Nat} {bound : List Token} {done : List (Option Stmt)} :
    programAfter depth bound done s = .ok done.reverse s := by
  obtain ⟨rest, eof, position, errors, tooDeep⟩ := s
  cases ended
  cases bound <;> rfl

end

structure Consumes (p : Parser α) : Prop where
  less {s s' : State} {a : α} : p s = .ok a s' → s'.rest.length < s.rest.length

namespace Consumes

theorem bind {p : Parser α} {f : α → Parser β} (first : Consumes p)
    (next : ∀ a, Accounted (f a)) : Consumes (p >>= f) := by
  refine ⟨fun run => ?_⟩
  obtain ⟨a, m, read, rest⟩ := bind_ok.mp run
  exact Nat.lt_of_le_of_lt ((next a).orderly.advances rest).length_le (first.less read)

theorem option {kinds : Token.Kind → Bool} {f : Option Token → Parser α}
    (found : ∀ t, Accounted (f (some t))) (other : Consumes (f none)) :
    Consumes (accept? kinds >>= f) := by
  refine ⟨fun run => ?_⟩
  rcases option_ok run with ⟨t, m, -, reads, rest⟩ | ⟨-, rest⟩
  · rw [reads.length_one]
    exact Nat.lt_succ_of_le ((found t).orderly.advances rest).length_le
  · exact other.less rest

theorem branch {kind : Token.Kind} {p q : Parser α} (yes : Accounted p) (no : Consumes q) :
    Consumes (do if ← accept kind then p else q) := by
  refine ⟨fun run => ?_⟩
  rcases branch_ok run with ⟨t, m, -, reads, rest⟩ | ⟨-, rest⟩
  · rw [reads.length_one]
    exact Nat.lt_succ_of_le (yes.orderly.advances rest).length_le
  · exact no.less rest

theorem primary {inner : Parser Expr} (h : Accounted inner) : Consumes (primary inner) := by
  refine branch (.pure _) <| branch (.pure _) <| branch (.pure _) <|
    option (fun t => .pure _) <| option (fun t => .pure _) <|
    branch ?_ ⟨fun run => absurd run fail_ne_ok⟩
  exact h.bind fun inside => (Accounted.expectMark _ _).bind fun _ => .pure _

theorem expression (depth : Nat) (l : Level) : Consumes (expression depth l) := by
  induction depth generalizing l with
  | zero => exact ⟨fun run => absurd run failTooDeep_ne_ok⟩
  | succ depth ih =>
      have inner := Accounted.expression depth
      rcases l with _ | p | _ | _ | _
      case assignment =>
        refine (ih _).bind fun target => Accounted.position.bind fun index =>
          (Accounted.accept? _).bind fun o => ?_
        cases o with
        | none => exact .pure _
        | some equals => exact (inner _).bind fun value => .assignTo _ _ _ _
      case chain =>
        exact (ih _).bind fun first => Accounted.remaining.bind fun bound =>
          .chainAfter p (inner _) bound first
      case unary => exact option (fun op => (inner _).bind fun operand => .pure _) (ih _)
      case call =>
        exact (ih _).bind fun callee => Accounted.remaining.bind fun bound =>
          .callsAfter (inner _) bound callee
      case primary => exact primary (inner _)

theorem statement (depth : Nat) (inFunction : Bool) : Consumes (statement depth inFunction) := by
  cases depth with
  | zero => exact ⟨fun run => absurd run failTooDeep_ne_ok⟩
  | succ depth =>
      have he := Accounted.expression depth .assignment
      obtain ⟨hd, hs⟩ := Accounted.declaration_statement depth inFunction
      refine branch (.printStatement he) <| branch ((Accounted.block hd).map _) <|
        branch (.ifStatement he hs) <| branch (.whileStatement he hs) <|
        branch (.forStatement he hs) ?_
      refine ⟨fun {s _ _} run => ?_⟩
      refine (option (fun keyword => .returnStatement he inFunction keyword s.position) ?_).less run
      exact (expression depth _).bind fun value => (Accounted.expectMark _ _).bind fun _ => .pure _

theorem construct (depth : Nat) (inFunction : Bool) : Consumes (construct depth inFunction) := by
  cases depth with
  | zero => exact ⟨fun run => absurd run failTooDeep_ne_ok⟩
  | succ depth =>
      exact branch (.varDeclaration (.expression depth _)) <|
        branch (.funDeclaration (Accounted.declaration_statement depth true).1)
          (statement depth inFunction)

end Consumes

/-- A parser that does not succeed without a token where one is left. -/
structure Proceeds (p : Parser α) : Prop where
  less {s s' : State} {a : α} : p s = .ok a s' → s.rest ≠ [] → s'.rest.length < s.rest.length

namespace Proceeds

theorem synchronize : Proceeds synchronize := by
  refine ⟨fun {s _ _} run more => ?_⟩
  obtain ⟨rest, eof, position, errors, tooDeep⟩ := s
  cases rest with
  | nil => exact absurd rfl more
  | cons t rest =>
      cases run
      obtain ⟨ts, read, -⟩ := Orderly.skipStatement_eq t rest (position + 1)
      have length := congrArg List.length read
      simp only [List.length_append] at length
      simp only [List.length_cons]
      omega

theorem recover {p : Parser α} (accounted : Accounted p) (h : Consumes p) :
    Proceeds (recover p) := by
  refine ⟨fun {s _ _} run more => ?_⟩
  cases read : p s with
  | ok a m =>
      rw [recover_of_ok read] at run
      cases run
      exact h.less read
  | error e m =>
      obtain ⟨m', skips, recovered⟩ := recover_of_error read
      rw [recovered] at run
      cases run
      have before := (accounted.orderly.stops read).1.length_le
      by_cases ended : m.rest = []
      · have after := (Orderly.synchronize.advances skips).length_le
        rw [ended] at after
        exact Nat.lt_of_le_of_lt after (List.length_pos_of_ne_nil more)
      · exact Nat.lt_of_lt_of_le (synchronize.less skips ended) before

theorem declaration (depth : Nat) (inFunction : Bool) :
    Proceeds (declaration depth inFunction) := by
  rw [declaration_eq]
  exact recover (Accounted.construct depth inFunction) (Consumes.construct depth inFunction)

end Proceeds

end Lox.Parser
