import Lox.Program
import Lox.Proofs.Parser.Completeness.Statement
import Lox.Proofs.Parser.Soundness.Statement

namespace Lox.Parser
open Grammar

variable {depth : Nat} {tokens : List Token} {eof : Token}

theorem Advances.clean {s : State} (h : (start tokens eof).Advances s) (errorless : s.errors = #[]) :
    s.Clean := by
  refine ⟨errorless, ?_⟩
  cases deep : s.tooDeep with
  | false => rfl
  | true =>
      rcases h.tooDeep deep with started | noted
      · exact started.symm
      · exact absurd errorless noted

theorem parse_derived (errorless : (parse depth tokens eof).2 = []) :
    ∃ body, Declarations depth false tokens body ∧ parse depth tokens eof = (body.map some, []) := by
  cases read : program depth (start tokens eof) with
  | error e s =>
      obtain ⟨advances, unclean⟩ := (Accounted.program depth).orderly.stops read
      simp only [parse, read, Array.toList_eq_nil_iff] at errorless
      exact absurd (Advances.clean advances errorless) unclean
  | ok items s =>
      have advances := (Accounted.program depth).orderly.advances read
      simp only [parse, read, Array.toList_eq_nil_iff] at errorless
      obtain ⟨body, derived, rfl⟩ := program_derived read (Advances.clean advances errorless)
      exact ⟨body, derived, by simp [parse, read, errorless]⟩

theorem parse_eq {body : List Stmt} (h : Declarations depth false tokens body) :
    parse depth tokens eof = (body.map some, []) := by
  have reads : (start tokens eof).Reads tokens
      { start tokens eof with rest := [], position := tokens.length } :=
    ⟨(List.append_nil _).symm, by simp [start]⟩
  rw [parse, program_reads h reads rfl]
  rfl

theorem parseExpression_derived {e : Expr} (read : parseExpression depth tokens eof = .ok e) :
    Phrase depth .assignment tokens e := by
  unfold parseExpression at read
  cases parsed : expression depth .assignment (start tokens eof) with
  | error error s =>
      rw [parsed] at read
      cases read
  | ok value s =>
      rw [parsed] at read
      dsimp only at read
      split at read
      · cases read
      · rename_i errorless ends
        cases read
        have advances := (Accounted.expression depth .assignment).orderly.advances parsed
        have clean := Advances.clean advances (Array.toList_eq_nil_iff.mp errorless)
        obtain ⟨ts, reads, derived⟩ := expression_recognizes depth .assignment _ _ _ parsed clean
        have all : tokens = ts := by
          have rest := reads.rest
          rw [ends, List.append_nil] at rest
          exact rest
        exact all ▸ derived
      · cases read

theorem parse_eq_iff (body : List Stmt) :
    parse depth tokens eof = (body.map some, []) ↔ Declarations depth false tokens body := by
  refine ⟨fun h => ?_, parse_eq⟩
  obtain ⟨other, derived, eq⟩ := parse_derived (congrArg Prod.snd h)
  rw [h] at eq
  have same : body = other :=
    (List.map_inj_right fun _ _ => Option.some.inj).mp (congrArg Prod.fst eq)
  exact same ▸ derived

theorem program_iff (room : 10 * tokens.length + 12 ≤ depth) (body : List Stmt) :
    Grammar.Program tokens body ↔ Declarations depth false tokens body := by
  constructor
  · rintro ⟨n, derived⟩
    exact derived.bounded.mono room
  · exact fun derived => ⟨depth, derived⟩

/-- The parser accepts exactly the grammar and answers with the tree of the derivation, of which no
declaration is left out. -/
theorem parse_accepts (tokens : List Token) (eof : Token) (depth : Nat)
    (room : 10 * tokens.length + 12 ≤ depth) :
    ((parse depth tokens eof).2 = [] ↔ ∃ body, Grammar.Program tokens body) ∧
      ((parse depth tokens eof).2 = [] → ∀ item ∈ (parse depth tokens eof).1, item ≠ none) ∧
      ∀ body, Grammar.Program tokens body ↔ parse depth tokens eof = (body.map some, []) := by
  refine ⟨⟨fun errorless => ?_, ?_⟩, fun errorless => ?_, fun body => ?_⟩
  · obtain ⟨body, derived, -⟩ := parse_derived errorless
    exact ⟨body, depth, derived⟩
  · rintro ⟨body, derived⟩
    rw [parse_eq ((program_iff room body).mp derived)]
  · obtain ⟨body, -, eq⟩ := parse_derived errorless
    rw [eq]
    simp
  · rw [parse_eq_iff, program_iff room]

theorem parse_accepts_assignments :
    let x : Token := ⟨.identifier, "x", .nil, 1⟩
    let y : Token := ⟨.identifier, "y", .nil, 1⟩
    let one : Token := ⟨.number, "1", .number 1, 1⟩
    let equals : Token := ⟨.equal, "=", .nil, 1⟩
    let close : Token := ⟨.semicolon, ";", .nil, 1⟩
    let tokens := [x, equals, y, equals, one, close]
    Grammar.Program tokens [.expression (.assign x (.assign y (.literal (.number 1))))] := by
  intro x y one equals close tokens
  exact ((parse_accepts tokens ⟨.eof, "", .nil, 1⟩ 100 (by decide)).2.2 _).mpr rfl

end Lox.Parser
