import Lox.Proofs.Parser.Tally

namespace Lox

namespace ParseError.Cause

theorem head_append {a : String} {c : Char} (h : a.toList.head? = some c) (b : String) :
    (a ++ b).toList.head? = some c := by
  rw [String.toList_append, List.head?_append, h]
  rfl

theorem message_head (cause : ParseError.Cause) : cause.message.toList.head? =
    some (match cause with
      | .invalidTarget => 'I'
      | .topLevelReturn | .tooMany _ => 'C'
      | .trailingTokens => 'U'
      | .missingExpression | .missingName _ | .missingMark .. | .nestedTooDeep => 'E') := by
  cases cause with
  | missingName =>
      dsimp only
      exact head_append (head_append (by decide) _) _
  | missingMark =>
      dsimp only
      exact head_append (head_append (head_append (head_append (by decide) _) _) _) _
  | tooMany =>
      dsimp only
      exact head_append (head_append (head_append (head_append (by decide) _) _) _) _
  | missingExpression | invalidTarget | topLevelReturn | nestedTooDeep | trailingTokens => decide

theorem stops_eq_false_iff (cause : ParseError.Cause) :
    cause.stops = false ↔ cause.message = "Invalid assignment target." ∨
      cause.message = "Can't return from top-level code." ∨
      ∃ role : ParseError.Role,
        cause.message = "Can't have more than 255 " ++ role.text ++ "s." := by
  constructor
  · intro goes
    cases cause with
    | invalidTarget => exact .inl rfl
    | topLevelReturn => exact .inr (.inl rfl)
    | tooMany role =>
        have number : "Can't have more than " ++ toString maxListLength ++ " " =
            "Can't have more than 255 " := by decide
        exact .inr (.inr ⟨role, congrArg (· ++ role.text ++ "s.") number⟩)
    | missingExpression | missingName | missingMark | nestedTooDeep | trailingTokens => cases goes
  · intro same
    have first : cause.message.toList.head? = some 'I' ∨
        cause.message.toList.head? = some 'C' := by
      rcases same with same | same | ⟨role, same⟩
      · exact .inl (by rw [same]; decide)
      · exact .inr (by rw [same]; decide)
      · exact .inr (by rw [same]; exact head_append (head_append (by decide) _) _)
    rw [message_head] at first
    cases cause with
    | invalidTarget | topLevelReturn | tooMany => rfl
    | missingExpression | missingName | missingMark | nestedTooDeep | trailingTokens =>
        simp at first

end ParseError.Cause

namespace Parser

/-- Errors that stop the reading are at later and later tokens, and all errors but invalid targets
are in order. As many stop as declarations are missing, at top level or from blocks. -/
theorem parse_blames (depth : Nat) (tokens : List Token) (eof : Token)
    (room : 10 * tokens.length + 12 ≤ depth) :
    ((parse depth tokens eof).2.Pairwise fun e e' => e.cause.stops = true → e'.cause.stops = true →
        e.index < e'.index ∨ e.index = tokens.length ∧ e'.index = tokens.length) ∧
      ((parse depth tokens eof).2.Pairwise fun e e' => e.cause ≠ .invalidTarget →
        e'.cause ≠ .invalidTarget → e.index ≤ e'.index) ∧
      (∀ e ∈ (parse depth tokens eof).2, (tokens ++ [eof])[e.index]? = some e.token) ∧
      (∀ e ∈ (parse depth tokens eof).2, e.cause.stops = false ↔
        e.message = "Invalid assignment target." ∨
        e.message = "Can't return from top-level code." ∨
        ∃ role : ParseError.Role, e.message = "Can't have more than 255 " ++ role.text ++ "s.") ∧
      (Tally.parse depth tokens eof).1 = parse depth tokens eof ∧
      (parse depth tokens eof).2.countP (·.cause.stops) =
        (parse depth tokens eof).1.countP (·.isNone) + (Tally.parse depth tokens eof).2 := by
  obtain ⟨items, s, n, read, counted, ts, es, spans, count, -⟩ :=
    Tallied.programAfter depth tokens [] (s := start tokens eof) room 0
  have errors : s.errors.toList = es := by simpa [start] using spans.errors
  have answer : parse depth tokens eof = (items, es) := by
    have read' : program depth (start tokens eof) = .ok items s := read
    simp only [parse, read', errors]
  have tally : Tally.parse depth tokens eof = ((items, es), n) := by
    simp only [Tally.parse, counted, errors, Nat.zero_add, List.reverse_nil, List.nil_append]
  have last : (start tokens eof).last = tokens.length := Nat.zero_add _
  rw [answer, tally]
  refine ⟨?_, ?_, ?_, ?_, rfl, ?_⟩
  · exact spans.ordered.imp fun before => last ▸ before.stopped
  · exact spans.ordered.imp fun before => before.reached
  · exact fun e member => (spans.holds e member).2
  · exact fun e _ => e.cause.stops_eq_false_iff
  · rw [count, Nat.add_comm]

theorem parse_blames_block :
    let tokens : List Token := [⟨.leftBrace, "\x7b", .nil, 1⟩, ⟨.plus, "+", .nil, 1⟩,
      ⟨.semicolon, ";", .nil, 1⟩, ⟨.rightBrace, "\x7d", .nil, 1⟩, ⟨.number, "1", .number 1, 1⟩]
    (parse 100 tokens ⟨.eof, "", .nil, 1⟩).2.countP (·.cause.stops) = 1 + 1 := by
  intro tokens
  exact (parse_blames 100 tokens ⟨.eof, "", .nil, 1⟩ (by decide)).2.2.2.2.2

end Parser

end Lox
