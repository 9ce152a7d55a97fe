import Lox.Proofs.Parser.Alike
import Lox.Proofs.Session.Code

namespace Lox

theorem Program.parse_error_token {depth : Nat} {source : String} {e : ParseError}
    (member : .parse e ∈ (read depth source).errors) : e.token ∈ (Scan.ofString source).allTokens := by
  let R : Token → Token → Prop := fun t t' => t = t' ∧ t ∈ (Scan.ofString source).allTokens
  have readable : Token.Readable R := ⟨fun same => same.1 ▸ rfl, fun same => same.1 ▸ rfl⟩
  have tokens : List.Forall₂ R (Scan.ofString source).tokens (Scan.ofString source).tokens :=
    List.forall₂_same.mpr fun t inside => ⟨rfl, List.mem_append_left _ inside⟩
  have ends : R (Scan.ofString source).eof (Scan.ofString source).eof :=
    ⟨rfl, List.mem_append_right _ (.head _)⟩
  have errors := (Parser.parse_alike readable depth tokens ends).2
  have parsed : e ∈ (Parser.parse depth (Scan.ofString source).tokens
      (Scan.ofString source).eof).2 := by
    rcases List.mem_append.mp member with scanned | parsed
    · obtain ⟨_, -, same⟩ := List.mem_map.mp scanned
      cases same
    · obtain ⟨_, inside, same⟩ := List.mem_map.mp parsed
      cases same
      exact inside
  cases List.forall₂_same.mp errors e parsed with
  | mk token => exact token.2

def Moment.At (a : Moment) (x : Expr) : Prop :=
  match a.task with
  | .expression e _ => x = e
  | .call _ paren _ => ∃ callee arguments, x = .call callee paren arguments
  | _ => False

/-- The token of an error is the one at which an expression reports errors of this cause. An error
that built-in functions raise is reported wherever they say. -/
def RuntimeError.ReportedAt (e : RuntimeError) (x : Expr) : Prop :=
  match e.cause with
  | .undefinedVariable =>
      e.token.kind = .identifier ∧ (x = .variable e.token ∨ ∃ value, x = .assign e.token value)
  | .notCallable | .arity .. | .stackOverflow | .alienResult _ =>
      e.token.kind = .rightParen ∧ ∃ callee arguments, x = .call callee e.token arguments
  | .operandNotNumber | .unsupportedUnary =>
      e.token.kind.isOperator = true ∧ ∃ operand, x = .unary e.token operand
  | .operandsNotNumbers | .operandsNotAddable | .unsupportedBinary =>
      e.token.kind.isOperator = true ∧ ∃ left right, x = .binary left e.token right
  | .raised _ => False

theorem Moment.Raises.reported {c : Context} {a : Moment} {e : RuntimeError} (raises : a.Raises c e)
    (calm : ∀ f calls arguments, (c.act f calls arguments).answer ≠ .raises e)
    {node : Expr → Prop} (code : (Invariant.code node).task a.task) :
    ∃ x, node x ∧ a.At x ∧
      ∀ tokens, x.From tokens → e.token ∈ tokens ∧ e.ReportedAt x := by
  cases raises with
  | name => exact ⟨_, code.1 _ (Expr.mem_parts _), rfl, fun _ place => ⟨place.1, place.2, .inl rfl⟩⟩
  | assign =>
      exact ⟨_, code.1 _ (Expr.mem_parts _), rfl, fun _ place => ⟨place.1, place.2, .inr ⟨_, rfl⟩⟩⟩
  | unary _ fails =>
      refine ⟨_, code.1 _ (Expr.mem_parts _), rfl, fun _ place => ?_⟩
      rcases Value.applyUnary_error fails with rfl | rfl
      · exact ⟨place.1, place.2, _, rfl⟩
      · exact ⟨place.1, place.2, _, rfl⟩
  | binary _ _ fails =>
      refine ⟨_, code.1 _ (Expr.mem_parts _), rfl, fun _ place => ?_⟩
      rcases Value.applyBinary_error fails with rfl | rfl | rfl
      · exact ⟨place.1, place.2, _, _, rfl⟩
      · exact ⟨place.1, place.2, _, _, rfl⟩
      · exact ⟨place.1, place.2, _, _, rfl⟩
  | raised _ _ answer => exact absurd answer (calm _ _ _)
  | notCallable | arity | full | exhausts | alien =>
      obtain ⟨⟨f, es, known⟩, -⟩ := code
      exact ⟨_, known, ⟨f, es, rfl⟩, fun _ place => ⟨place.1, place.2, f, es, rfl⟩⟩

/-- Parse errors are reported at tokens of the text. A runtime error that is not raised by a
built-in function arises at an expression of one of the texts run so far, and is reported at a
token of it. -/
theorem errors_point_at_tokens :
    (∀ depth source e, .parse e ∈ (Program.read depth source).errors →
        e.token ∈ (Scan.ofString source).allTokens) ∧
      ∀ c : Context, c.Gives (fun _ => False) → ∀ past i, (Interpreter.new c).Ran past i →
        ∀ {α : Type} {work : Session α} {source : String}, Session.Runs source work →
          ∀ e, (∀ f calls arguments, (c.act f calls arguments).answer ≠ .raises e) →
            ∀ j, work i = .error (.runtimeError e) j →
              ∃ origin ∈ past ++ [source], ∃ task fuel a active x,
                Program.Means c.nesting source task ∧ Program.Contains origin x ∧
                Reaches c ⟨task, fuel, i.machine.idle⟩ a active ∧ a.At x ∧
                a.Raises c e ∧ e.ReportedAt x ∧ e.token ∈ (Scan.ofString origin).tokens ∧
                1 ≤ e.line ∧ e.line ≤ 1 + newlines origin.toList := by
  refine ⟨fun depth source e => Program.parse_error_token, ?_⟩
  intro c gives past i ran α work source runs e calm j fails
  have same : i.context = c := ran.leads.context
  have code : c.Gives fun g => ∀ x ∈ Stmt.allExpressions g.body,
      Program.Known (past ++ [source]) x := gives.mono fun _ => False.elim
  -- What was known before the run, and what the run adds to it.
  have known : (Invariant.code (Program.Known (past ++ [source]))).store i.machine.store :=
    ran.code code (Interpreter.new_made _ c) fun x inside => inside.later source
  obtain ⟨task, fuel, a, active, means, reaches, holds, raises⟩ :=
    runs.raises (same ▸ code) known (fun x contains => Program.known_last contains past) fails
  rw [same] at means reaches raises
  obtain ⟨x, ⟨origin, member, contains⟩, here, reported⟩ := raises.reported calm holds.task
  obtain ⟨token, place⟩ := reported _ contains.written.from_tokens
  exact ⟨origin, member, task, fuel, a, active, x, means, contains, reaches, here, raises, place,
    token, Scan.line_of_mem_tokens token⟩

theorem errors_point_at_tokens_undefined :
    let y : Token := ⟨.identifier, "y", .nil, 2⟩
    let i := Interpreter.new { Clock.host (fun _ => 0) 100 with limit := 10 }
    (∃ j, Session.run 5 "\ny;" i = .error (.runtimeError ⟨.undefinedVariable, y⟩) j) ∧
      y ∈ (Scan.ofString "\ny;").tokens := by
  intro y i
  obtain ⟨j, run⟩ : ∃ j, Session.run 5 "\ny;" i = .error (.runtimeError ⟨.undefinedVariable, y⟩) j :=
    ⟨_, rfl⟩
  have calm : ∀ f calls arguments, (i.context.act f calls arguments).answer ≠
      .raises ⟨.undefinedVariable, y⟩ := by
    intro f calls arguments raises
    cases raises
  obtain ⟨origin, member, _, _, _, _, _, _, _, _, _, _, _, token, _⟩ :=
    errors_point_at_tokens.2 _ (Clock.host_gives _ _ _) _ _ .start (.run 5) _ calm _ run
  obtain rfl := List.mem_singleton.mp member
  exact ⟨⟨j, run⟩, token⟩

end Lox
