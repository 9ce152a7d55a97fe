import Lox.Proofs.Parser.Loop
import Lox.Proofs.Parser.Tally

namespace Lox.Parser
open Grammar (faces)

variable {α : Type} {s m s' : State} {looks others : List Look}

/-! ## Looks are in order and at tokens -/

theorem State.Advances.position_le (h : s.Advances s') : s.position ≤ s'.position := by
  obtain ⟨ts, -, moved⟩ := h.rest
  omega

theorem State.Advances.last_eq (h : s.Advances s') : s'.last = s.last := by
  obtain ⟨ts, read, moved⟩ := h.rest
  simp only [State.last, read, moved, List.length_append]
  omega

/-- The looks are taken on the way from `s` to `s'`, one after the other, and at tokens of the text
or the mark of its end if it has tokens. -/
structure State.Covers (s s' : State) (looks : List Look) : Prop where
  between : ∀ look ∈ looks, s.position ≤ look.position ∧ look.position ≤ s'.position
  ordered : looks.Pairwise (·.position ≤ ·.position)
  inside : 0 < s.last → ∀ look ∈ looks, 0 ≤ look.index ∧ look.index ≤ s.last

namespace State.Covers

theorem nil (s s' : State) : s.Covers s' [] := ⟨nofun, .nil, fun _ => nofun⟩

theorem next (h : s.Advances s') : s.Covers s' [.next s.position] := by
  have le := h.position_le
  refine ⟨?_, List.pairwise_singleton _ _, fun _ => ?_⟩
  · simp [Look.next, le]
  · simp [Look.next, State.last]

theorem last (h : s.Advances s') (read : 0 < s.position ∨ s.rest = []) :
    s.Covers s' [.last s.position] := by
  have le := h.position_le
  refine ⟨?_, List.pairwise_singleton _ _, fun nonempty => ?_⟩
  · simp [Look.last, le]
  · have one : 0 < s.position := by
      rcases read with one | nothing
      · exact one
      · simpa [State.last, nothing] using nonempty
    simp only [List.mem_singleton, forall_eq, Look.last, State.last]
    omega

theorem trans (first : s.Advances m) (second : m.Advances s') (head : s.Covers m looks)
    (tail : m.Covers s' others) : s.Covers s' (looks ++ others) := by
  have before := first.position_le
  have after := second.position_le
  refine ⟨?_, ?_, fun nonempty => ?_⟩
  · refine List.forall_mem_append.mpr ⟨fun look member => ?_, fun look member => ?_⟩
    · obtain ⟨low, high⟩ := head.between look member
      exact ⟨low, high.trans after⟩
    · obtain ⟨low, high⟩ := tail.between look member
      exact ⟨before.trans low, high⟩
  · refine List.pairwise_append.mpr ⟨head.ordered, tail.ordered, fun look member other member' => ?_⟩
    exact (head.between look member).2.trans (tail.between other member').1
  · have same := first.last_eq
    refine List.forall_mem_append.mpr ⟨head.inside nonempty, ?_⟩
    rw [← same] at nonempty ⊢
    exact tail.inside nonempty

theorem skip (last : Token) (s : State) (read : 0 < s.position) :
    s.Covers { s with
      rest := (skipStatement last s.rest s.position).1
      position := (skipStatement last s.rest s.position).2 }
      (skipStatementLooks last s.rest s.position) := by
  obtain ⟨rest, eof, position, errors, tooDeep⟩ := s
  induction rest generalizing last position with
  | nil => exact next (.refl _)
  | cons t rest ih =>
      have two {s' : State} (h : State.Advances ⟨t :: rest, eof, position, errors, tooDeep⟩ s') :
          State.Covers ⟨t :: rest, eof, position, errors, tooDeep⟩ s'
            [.next position, .last position] :=
        trans (.refl _) h (next (.refl _)) (.last h (.inl read))
      have three {s' : State} (h : State.Advances ⟨t :: rest, eof, position, errors, tooDeep⟩ s') :
          State.Covers ⟨t :: rest, eof, position, errors, tooDeep⟩ s'
            [.next position, .last position, .next position] :=
        trans (.refl _) h (two (.refl _)) (.next h)
      cases ends : last.kind == .semicolon
      case true =>
        simp only [skipStatement, skipStatementLooks, ends, Bool.true_or, if_true]
        exact two (.refl _)
      case false =>
        cases begins : t.kind.startsStatement
        case true =>
          simp only [skipStatement, skipStatementLooks, ends, begins, Bool.or_true, if_true,
            Bool.false_eq_true, if_false]
          exact three (.refl _)
        case false =>
          simp only [skipStatement, skipStatementLooks, ends, begins, Bool.or_false,
            Bool.false_eq_true, if_false]
          have skipped := Orderly.skip_advances ⟨rest, eof, position + 1, errors, tooDeep⟩ t
          refine trans (.one ..) skipped (three (.one ..)) ?_
          refine trans (.refl _) skipped (.last (.refl _) (.inl (Nat.succ_pos _))) ?_
          exact ih t (position + 1) (Nat.succ_pos _)

theorem synchronize {u : Unit} (skips : Parser.synchronize m = .ok u s') :
    m.Covers s' m.synchronizeLooks := by
  obtain ⟨rest, eof, position, errors, tooDeep⟩ := m
  cases rest with
  | nil =>
      cases skips
      exact trans (.refl _) (.refl _) (next (.refl _)) (last (.refl _) (.inr rfl))
  | cons t rest =>
      cases skips
      have first := State.Advances.one t rest eof position errors tooDeep
      have skipped := Orderly.skip_advances ⟨rest, eof, position + 1, errors, tooDeep⟩ t
      refine trans first skipped (next first) ?_
      refine trans (.refl _) skipped (last (.refl _) (.inl (Nat.succ_pos _))) ?_
      exact skip t _ (Nat.succ_pos _)

end State.Covers

theorem Looks.covers {p : Parser α} (h : Looks p s looks) : s.Covers (final (p s)) looks := by
  induction h with
  | pure a s | remaining s | position s | note cause t index s => exact .nil _ _
  | spent a s | peek s | atEnd s => exact .next (.refl s)
  | check kinds s =>
      rw [check_eq]
      exact .next (.refl s)
  | fail cause s => exact .next ((Orderly.fail cause).outcome s).1
  | failTooDeep s => exact .next (Orderly.failTooDeep.outcome s).1
  | other stays =>
      rw [stays]
      exact .next ((Orderly.accept? _).advances stays)
  | @found kinds s m t reads =>
      have advances := (Orderly.accept? kinds).advances reads
      rw [reads]
      refine .trans advances (.refl m) (.next advances) (.last (.refl m) (.inl ?_))
      rcases accept?_ok reads with ⟨t, -, -, token⟩ | ⟨missing, -⟩
      · rw [token.same]
        exact Nat.succ_pos _
      · cases missing
  | @bind _ _ p f s m a looks others reads head tail first second =>
      have before := head.orderly.1
      rw [reads] at before first
      rw [bind_eq reads]
      exact .trans before tail.orderly.1 first second
  | stops stop _ first =>
      rw [stop] at first
      rw [bind_stop stop]
      exact first
  | recovers reads _ inside =>
      rw [reads] at inside
      rw [recover_of_ok reads]
      exact inside
  | skips stop head inside =>
      obtain ⟨m', skipped, recovered⟩ := recover_of_error stop
      have before := head.orderly.1
      rw [stop] at before inside
      rw [recovered]
      exact .trans before (Orderly.synchronize.advances skipped) inside (.synchronize skipped)

/-! ## Positions in a text -/

/-- The state is at a position of the text, the mark of the end included. -/
structure State.Along (tokens : List Token) (eof : Token) (s : State) : Prop where
  mark : s.eof = eof
  within : s.position ≤ tokens.length
  rest : s.rest = tokens.drop s.position

section
variable {tokens : List Token} {eof : Token}

namespace State.Along

theorem start : (start tokens eof).Along tokens eof := ⟨rfl, Nat.zero_le _, rfl⟩

theorem length (h : s.Along tokens eof) : s.rest.length = tokens.length - s.position := by
  rw [h.rest, List.length_drop]

theorem last (h : s.Along tokens eof) : s.last = tokens.length := by
  have within := h.within
  rw [State.last, h.length]
  omega

theorem ended (h : s.Along tokens eof) : s.rest = [] ↔ s.position = tokens.length := by
  have within := h.within
  rw [h.rest, List.drop_eq_nil_iff]
  omega

theorem advances (h : s.Along tokens eof) (next : s.Advances s') : s'.Along tokens eof := by
  obtain ⟨ts, read, moved⟩ := next.rest
  refine ⟨next.eof.trans h.mark, ?_, ?_⟩
  · rw [← h.last, ← next.last_eq]
    exact Nat.le_add_right _ _
  · rw [moved, ← List.drop_drop, ← h.rest, read, List.drop_left]

theorem next (h : s.Along tokens eof) :
    (tokens ++ [eof])[s.position]? = some (s.rest.headD s.eof) := by
  have cut : tokens ++ [eof] = tokens.take s.position ++ (s.rest ++ [s.eof]) := by
    rw [h.rest, h.mark, ← List.append_assoc, List.take_append_drop]
  have read : (tokens.take s.position).length = s.position := by
    rw [List.length_take, Nat.min_eq_left h.within]
  rw [cut, List.getElem?_append_right read.le, read]
  exact s.holds_peek.2

theorem next_kind (h : s.Along tokens eof) (mark : eof.kind = .eof)
    (inner : ∀ t ∈ tokens, t.kind ≠ .eof) :
    (s.rest.headD s.eof).kind = .eof ↔ s.position = tokens.length := by
  rw [← h.ended]
  cases rest : s.rest with
  | nil => simp [h.mark, mark]
  | cons t ts =>
      have member : t ∈ tokens := List.mem_of_mem_drop (h.rest ▸ rest ▸ List.mem_cons_self)
      simp [inner t member]

theorem takes (h : s.Along tokens eof) (h' : s'.Along tokens eof)
    (less : s'.rest.length < s.rest.length) : s.position < s'.position := by
  rw [h.length, h'.length] at less
  have within := h.within
  have within' := h'.within
  omega

end State.Along

theorem declaration_forward (depth : Nat) (inFunction : Bool) (h : s.Along tokens eof)
    (more : s.position < tokens.length) :
    ∃ item s', declaration depth inFunction s = .ok item s' ∧ s'.Along tokens eof ∧
      s.position < s'.position := by
  obtain ⟨item, s', read⟩ := declaration_total depth inFunction s
  have along := h.advances ((Accounted.declaration_statement depth inFunction).1.orderly.advances read)
  have more : s.rest ≠ [] := fun ended => by
    have ended := h.ended.mp ended
    omega
  exact ⟨item, s', read, along, h.takes along ((Proceeds.declaration depth inFunction).less read more)⟩

end

/-! ## Loops -/

theorem declarationRound_total (depth : Nat) (inFunction : Bool) (done : List Stmt) (s : State) :
    ∃ next m, declarationRound (declaration depth inFunction) done s = .ok next m := by
  rw [declarationRound, bind_eq (check_eq _ s)]
  split
  · exact ⟨_, _, rfl⟩
  rw [bind_eq (atEnd_eq s)]
  split
  · exact ⟨_, _, rfl⟩
  obtain ⟨o, m, read⟩ := declaration_total depth inFunction s
  rw [bind_eq read]
  cases o <;> exact ⟨_, _, rfl⟩

theorem declarationRound_exit {d : Parser (Option Stmt)} {done body : List Stmt}
    (exits : declarationRound d done s = .ok (.inr body) s') :
    s'.rest = [] ∨ faces s'.rest (· == .rightBrace) = true := by
  rw [declarationRound, bind_eq (check_eq _ s)] at exits
  split at exits
  · rename_i closes
    cases exits
    exact .inr closes
  rw [bind_eq (atEnd_eq s)] at exits
  split at exits
  · rename_i ended
    cases exits
    exact .inl (List.isEmpty_iff.mp ended)
  obtain ⟨o, m, -, same⟩ := bind_ok.mp exits
  cases o <;> cases same

theorem programRound_total (depth : Nat) (done : List (Option Stmt)) (s : State) :
    ∃ next m, programRound depth done s = .ok next m := by
  rw [programRound, bind_eq (atEnd_eq s)]
  split
  · exact ⟨_, _, rfl⟩
  obtain ⟨o, m, read⟩ := declaration_total depth false s
  exact ⟨_, _, bind_eq read⟩

theorem programRound_exit {depth : Nat} {done items : List (Option Stmt)}
    (exits : programRound depth done s = .ok (.inr items) s') :
    s'.rest = [] ∧ items = done.reverse := by
  rw [programRound, bind_eq (atEnd_eq s)] at exits
  split at exits
  · rename_i ended
    cases exits
    exact ⟨List.isEmpty_iff.mp ended, rfl⟩
  obtain ⟨o, m, -, same⟩ := bind_ok.mp exits
  cases same

theorem program_length {depth n : Nat} {done items : List (Option Stmt)}
    {r : EStateM.Result ParseError State (List (Option Stmt))}
    (h : Loop (programRound depth) n done s r) (ends : r = .ok items s') :
    items.length = done.length + n := by
  induction h with
  | exits last =>
      cases ends
      rw [(programRound_exit last).2, List.length_reverse, Nat.add_zero]
  | fails => cases ends
  | @again n done done' s m r goes _ ih =>
      rw [ih ends]
      rw [programRound, bind_eq (atEnd_eq s)] at goes
      split at goes
      · cases goes
      obtain ⟨o, m', -, same⟩ := bind_ok.mp goes
      cases same
      rw [List.length_cons]
      omega

/-- Each loop of a parser with this depth ends if it is started here, after no more rounds than
there are tokens left. -/
structure State.LoopsEnd (depth : Nat) (s : State) : Prop where
  chain (p : Precedence) (left : Expr) : ∃ n ≤ s.rest.length,
    Loop (chainRound p (expression depth p.operand)) n left s
      (chainAfter p (expression depth p.operand) s.rest left s)
  calls (callee : Expr) : ∃ n ≤ s.rest.length,
    Loop (callRound (expression depth .assignment)) n callee s
      (callsAfter (expression depth .assignment) s.rest callee s)
  arguments : ∃ n ≤ s.rest.length,
    Loop (itemRound .argument (expression depth .assignment)) n [] s
      (commaListAfter .argument (expression depth .assignment) s.rest 0 [] s)
  parameters : ∃ n ≤ s.rest.length,
    Loop (itemRound .parameter (expectName .parameter)) n [] s
      (commaListAfter .parameter (expectName .parameter) s.rest 0 [] s)
  declarations (inFunction : Bool) : ∃ n ≤ s.rest.length, ∃ body s',
    Loop (declarationRound (declaration depth inFunction)) n [] s (.ok body s') ∧
      declarationsAfter (declaration depth inFunction) s.rest [] s = .ok body s' ∧
      (s'.rest = [] ∨ faces s'.rest (· == .rightBrace) = true)
  program : ∃ n ≤ s.rest.length, ∃ items s',
    Loop (programRound depth) n [] s (.ok items s') ∧
      Parser.program depth s = .ok items s' ∧ s'.rest = [] ∧ items.length = n

theorem State.loopsEnd (depth : Nat) (s : State) : s.LoopsEnd depth where
  chain p left := (chainAfter_bounds (.expression depth _)).loop le_rfl left
  calls callee := (callsAfter_bounds (.expression depth _)).loop le_rfl callee
  arguments := (commaListAfter_bounds (.expression depth _)).loop le_rfl []
  parameters := (commaListAfter_bounds (.expectName _)).loop le_rfl []
  declarations inFunction := by
    obtain ⟨n, few, loop⟩ :=
      (declarationsAfter_bounds (Proceeds.declaration depth inFunction)).loop le_rfl []
    obtain ⟨body, s', ends, closes⟩ :=
      loop.exit (declarationRound_total depth inFunction) declarationRound_exit
    exact ⟨n, few, body, s', ends ▸ loop, ends, closes⟩
  program := by
    obtain ⟨n, few, loop⟩ := (programAfter_bounds depth).loop le_rfl []
    obtain ⟨items, s', ends, done⟩ :=
      loop.exit (programRound_total depth) fun last => (programRound_exit last).1
    have count := program_length loop ends
    exact ⟨n, few, items, s', ends ▸ loop, ends, done, by simpa using count⟩

/-! ## The whole text -/

section
variable {tokens : List Token} {eof : Token}

theorem program_looks (depth : Nat) : ∃ looks, Looks (program depth) (start tokens eof) looks ∧
    looks.Pairwise (·.position ≤ ·.position) ∧
    ∀ look ∈ looks, look.position ≤ tokens.length ∧ 0 ≤ look.index ∧ look.index ≤ tokens.length := by
  cases tokens with
  | nil =>
      refine ⟨_, .bind rfl (.remaining _) (.spent [] _), List.pairwise_singleton _ _, ?_⟩
      simp [Look.next, start]
  | cons t tokens =>
      obtain ⟨looks, account⟩ := Accounted.program depth (start (t :: tokens) eof)
      have covers := account.covers
      have along := State.Along.start.advances account.orderly.1
      have last : (start (t :: tokens) eof).last = (t :: tokens).length := State.Along.start.last
      refine ⟨looks, account, covers.ordered, fun look member => ⟨?_, ?_⟩⟩
      · exact (covers.between look member).2.trans along.within
      · rw [← last]
        exact covers.inside (by rw [last]; exact Nat.succ_pos _) look member

/-- With ten levels for each token and twelve more, no construct is nested too deep. -/
theorem program_room {depth : Nat} {items : List (Option Stmt)}
    (read : program depth (start tokens eof) = .ok items s)
    (room : 10 * tokens.length + 12 ≤ depth) : s.tooDeep = false := by
  obtain ⟨others, s', n, read', -, ts, es, spans, -⟩ :=
    @Tallied.programAfter depth tokens [] (start tokens eof) room 0
  have same : program depth (start tokens eof) = .ok others s' := read'
  rw [read] at same
  cases same
  exact spans.tooDeep

/-- A text whose last token is the only mark of the end is read to that mark, whatever errors it
has, in no more rounds of each loop than there are tokens left. The position never goes back, every
look is at a token, and a declaration that starts before the mark takes one. -/
theorem parse_terminates (mark : eof.kind = .eof) (inner : ∀ t ∈ tokens, t.kind ≠ .eof)
    (depth : Nat) :
    (∃ items s, program depth (start tokens eof) = .ok items s ∧
        (parse depth tokens eof).1 = items ∧ items.length ≤ tokens.length ∧
        s.position = tokens.length ∧ (10 * tokens.length + 12 ≤ depth → s.tooDeep = false)) ∧
      (∃ looks, Looks (program depth) (start tokens eof) looks ∧
        looks.Pairwise (·.position ≤ ·.position) ∧
        ∀ look ∈ looks,
          look.position ≤ tokens.length ∧ 0 ≤ look.index ∧ look.index ≤ tokens.length) ∧
      ∀ s : State, s.Along tokens eof →
        (tokens ++ [eof])[s.position]? = some (s.rest.headD s.eof) ∧
        ((s.rest.headD s.eof).kind = .eof ↔ s.position = tokens.length) ∧
        s.LoopsEnd depth ∧
        ∀ inFunction,
          (∀ looks, Looks (declaration depth inFunction) s looks →
            s.Covers (final (declaration depth inFunction s)) looks) ∧
          (s.position < tokens.length → ∃ item s',
            declaration depth inFunction s = .ok item s' ∧ s'.Along tokens eof ∧
              s.position < s'.position) := by
  refine ⟨?_, program_looks depth, fun s along => ⟨along.next, along.next_kind mark inner,
    s.loopsEnd depth, fun inFunction => ⟨fun looks account => account.covers,
      declaration_forward depth inFunction along⟩⟩⟩
  obtain ⟨n, few, items, s, -, read, ended, count⟩ := ((start tokens eof).loopsEnd depth).program
  have along := State.Along.start.advances ((Accounted.program depth).orderly.advances read)
  exact ⟨items, s, read, by rw [parse, read], count ▸ few, along.ended.mp ended, program_room read⟩

theorem parse_terminates_block :
    let opening : Token := ⟨.leftBrace, "\x7b", .nil, 1⟩
    let plus : Token := ⟨.plus, "+", .nil, 1⟩
    let semicolon : Token := ⟨.semicolon, ";", .nil, 1⟩
    let closing : Token := ⟨.rightBrace, "\x7d", .nil, 1⟩
    let eof : Token := ⟨.eof, "", .nil, 1⟩
    let tokens := [opening, plus, semicolon, closing]
    eof.kind = .eof ∧ (∀ t ∈ tokens, t.kind ≠ .eof) ∧
      (∃ item s', declaration 100 false ⟨[plus, semicolon, closing], eof, 1, #[], false⟩ =
        .ok item s' ∧ s'.Along tokens eof ∧ 1 < s'.position) ∧
      (parse 100 tokens eof).1.length ≤ 4 := by
  intro opening plus semicolon closing eof tokens
  have inner : ∀ t ∈ tokens, t.kind ≠ .eof := by decide
  have mark : eof.kind = .eof := rfl
  obtain ⟨⟨items, s, -, answer, few, -⟩, -, everywhere⟩ := parse_terminates mark inner 100
  have along : State.Along tokens eof ⟨[plus, semicolon, closing], eof, 1, #[], false⟩ :=
    ⟨rfl, by decide, rfl⟩
  obtain ⟨-, -, -, steps⟩ := everywhere _ along
  exact ⟨mark, inner, (steps false).2 (by decide), by rw [answer]; exact few⟩

end

end Lox.Parser
