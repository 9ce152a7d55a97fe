import Lox.Proofs.Evaluation.Fixed
import Lox.Proofs.Parser.Alike
import Lox.Proofs.Session

namespace Lox

structure Token.Same (t t' : Token) : Prop where
  kind : t.kind = t'.kind
  lexeme : t.lexeme = t'.lexeme
  literal : t.literal = t'.literal

theorem Token.Same.refl (t : Token) : t.Same t := ⟨rfl, rfl, rfl⟩

theorem Token.Same.faithful : Token.Faithful Token.Same := ⟨Same.kind, Same.lexeme⟩

theorem Token.Same.readable : Token.Readable Token.Same := ⟨Same.kind, Same.literal⟩

structure ParseError.SameButLine (e e' : ParseError) : Prop where
  message : e.message = e'.message
  place : e.place = e'.place
  index : e.index = e'.index
  token : e.token.Same e'.token

inductive SyntaxError.SameButLine : SyntaxError → SyntaxError → Prop
  | parse {e e' : ParseError} (same : e.SameButLine e') : SameButLine (.parse e) (.parse e')

structure RuntimeError.SameButLine (e e' : RuntimeError) : Prop where
  cause : e.cause = e'.cause
  message : e.message = e'.message
  token : e.token.Same e'.token

theorem ParseError.Alike.sameButLine {e e' : ParseError} (h : e.Alike Token.Same e') :
    e.SameButLine e' := by
  cases h with
  | mk token => exact ⟨rfl, by simp only [place, token.kind, token.lexeme], rfl, token⟩

theorem RuntimeError.Alike.sameButLine {e e' : RuntimeError} (h : e.Alike Token.Same e') :
    e.SameButLine e' := by
  cases h with
  | mk token => exact ⟨rfl, by simp only [message, token.lexeme], token⟩

def Machine.SameButLines (m m' : Machine) : Prop := (Worlds.fixed Token.Same).Machines () m m'

structure Interpreter.SameButLines (i j : Interpreter) : Prop where
  context : i.context = j.context
  machine : i.machine.SameButLines j.machine

theorem Machine.SameButLines.refl (m : Machine) : m.SameButLines m :=
  ⟨.refl Token.Same.refl m.store, rfl, rfl, rfl, rfl⟩

theorem Interpreter.SameButLines.refl (i : Interpreter) : i.SameButLines i := ⟨rfl, .refl i.machine⟩

/-- Ends of runs in the same way, after the same output, but for the lines in reports. -/
inductive Session.SameButLines : Except Failure Unit × Machine → Except Failure Unit × Machine → Prop
  | ok {m m' : Machine} (machines : m.SameButLines m') : SameButLines (.ok (), m) (.ok (), m')
  | syntaxErrors {es es'} {m m' : Machine} (errors : List.Forall₂ SyntaxError.SameButLine es es')
      (machines : m.SameButLines m') :
      SameButLines (.error (.syntaxErrors es), m.prints (es.map SyntaxError.report))
        (.error (.syntaxErrors es'), m'.prints (es'.map SyntaxError.report))
  | runtimeError {e e' : RuntimeError} {m m' : Machine} (error : e.SameButLine e')
      (machines : m.SameButLines m') :
      SameButLines (.error (.runtimeError e), m.prints [e.report])
        (.error (.runtimeError e'), m'.prints [e'.report])
  | depthTooLarge {m m' : Machine} (machines : m.SameButLines m') :
      SameButLines (.error .depthTooLarge, m) (.error .depthTooLarge, m')
  | exhausted {m m' : Machine} (machines : m.SameButLines m') :
      SameButLines (.error .exhausted, m) (.error .exhausted, m')
  | outOfFuel {m m' : Machine} (machines : m.SameButLines m') :
      SameButLines (.error .outOfFuel, m) (.error .outOfFuel, m')

theorem forall₂_filterMap {α β : Type} {rel : α → β → Prop} {xs : List (Option α)}
    {ys : List (Option β)} (h : List.Forall₂ (Option.Rel rel) xs ys) :
    List.Forall₂ rel (xs.filterMap id) (ys.filterMap id) := by
  induction h with
  | nil => exact .nil
  | cons head _ ih =>
      cases head with
      | some related => exact .cons related ih
      | none => exact ih

section
variable {a b : String} (scanned : (Scan.ofString a).errors = [])
  (scanned' : (Scan.ofString b).errors = [])
  (same : List.Forall₂ Token.Same (Scan.ofString a).tokens (Scan.ofString b).tokens)
include scanned scanned' same

theorem Program.read_sameButLines (depth : Nat) :
    List.Forall₂ (Option.Rel (Stmt.Alike Token.Same)) (read depth a).items (read depth b).items ∧
      List.Forall₂ SyntaxError.SameButLine (read depth a).errors (read depth b).errors := by
  have ends : (Scan.ofString a).eof.Same (Scan.ofString b).eof := ⟨rfl, rfl, rfl⟩
  obtain ⟨items, errors⟩ := Parser.parse_alike Token.Same.readable depth same ends
  refine ⟨items, ?_⟩
  simp only [read, scanned, scanned', List.map_nil, List.nil_append]
  rw [List.forall₂_map_left_iff, List.forall₂_map_right_iff]
  exact errors.imp fun _ _ alike => .parse alike.sameButLine

theorem Program.compile_sameButLines (depth : Nat) :
    (∃ body body', compile depth a = .ok body ∧ compile depth b = .ok body' ∧
        List.Forall₂ (Stmt.Alike Token.Same) body body') ∨
      ∃ es es', compile depth a = .error es ∧ compile depth b = .error es' ∧
        List.Forall₂ SyntaxError.SameButLine es es' := by
  obtain ⟨items, errors⟩ := read_sameButLines scanned scanned' same depth
  cases first : (read depth a).errors with
  | nil =>
      rw [first] at errors
      have second := List.forall₂_nil_left_iff.mp errors
      exact .inl ⟨(read depth a).statements, (read depth b).statements, by simp [compile, first],
        by simp [compile, second], forall₂_filterMap items⟩
  | cons e es =>
      rw [first] at errors
      obtain ⟨e', es', -, -, second⟩ := List.forall₂_cons_left_iff.mp errors
      rw [second] at errors
      exact .inr ⟨_, _, compile_eq_error.mpr ⟨first, List.cons_ne_nil _ _⟩,
        compile_eq_error.mpr ⟨second, List.cons_ne_nil _ _⟩, errors⟩

end

theorem Session.reported_sameButLines {c : Context}
    (blind : c.Blind (fun _ => True) fun _ => True) (fuel : Nat) {body body' : List Stmt}
    (alike : List.Forall₂ (Stmt.Alike Token.Same) body body') {m m' : Machine}
    (machines : m.SameButLines m') :
    SameButLines (reported (Eval.program c fuel body m)) (reported (Eval.program c fuel body' m')) := by
  have contexts : (Worlds.fixed Token.Same).Contexts (fun _ => False) c c :=
    .of_blind Token.Same.faithful rfl blind (fun t _ => .refl t) (fun _ _ _ => rfl) (.inl rfl) id
  have simulates : (Worlds.fixed Token.Same).Simulates (fun _ => False) () (fun _ _ _ => True)
      (Eval.program c fuel body) (Eval.program c fuel body') :=
    Worlds.program_simulates Token.Same.faithful contexts (.inl rfl) rfl alike
  have follows := simulates () m m' le_rfl machines
  cases first : Eval.program c fuel body m with
  | ok u m₁ =>
      rw [first] at follows
      obtain ⟨u', m₂, _, second, -, -, ends⟩ := follows
      rw [second]
      exact .ok ends
  | error stop m₁ =>
      rw [first] at follows
      rcases follows with ⟨stop', m₂, _, second, -, stops, ends⟩ | ⟨short, -⟩
      · rw [second]
        cases stops with
        | error error => exact .runtimeError error.sameButLine ends
        | exhausted => exact .exhausted ends
        | outOfFuel => exact .outOfFuel ends
      · exact short.elim

/-- Two texts without lexical errors that have the same tokens on other lines are read as the same
trees and do the same on interpreters that are the same, but for the lines of tokens: as long as no
built-in function looks at these lines. -/
theorem Session.run_layout {a b : String} (scanned : (Scan.ofString a).errors = [])
    (scanned' : (Scan.ofString b).errors = [])
    (same : List.Forall₂ Token.Same (Scan.ofString a).tokens (Scan.ofString b).tokens) :
    (∀ depth, List.Forall₂ (Option.Rel (Stmt.Alike Token.Same)) (Program.read depth a).items
        (Program.read depth b).items) ∧
      ∀ fuel i j, i.context.Blind (fun _ => True) (fun _ => True) → i.SameButLines j →
        SameButLines (outcome (run fuel a i)) (outcome (run fuel b j)) := by
  refine ⟨fun depth => (Program.read_sameButLines scanned scanned' same depth).1,
    fun fuel i j blind start => ?_⟩
  have context := start.context
  rcases Program.compile_sameButLines scanned scanned' same i.context.nesting with
    ⟨body, body', first, second, alike⟩ | ⟨es, es', first, second, errors⟩
  · rw [outcome_run first, outcome_run (context ▸ second), ← context]
    split
    · exact .depthTooLarge start.machine
    · obtain ⟨stores, declared, calls, -, output⟩ := start.machine
      have machines : Machine.SameButLines { i.machine with depth := 0 }
          { j.machine with depth := 0 } := ⟨stores, declared, calls, rfl, output⟩
      unfold ending
      rw [← context]
      exact reported_sameButLines blind fuel alike machines
  · rw [outcome_run_rejected first, outcome_run_rejected (context ▸ second)]
    exact .syntaxErrors errors start.machine

theorem Session.run_layout_undefined :
    let i := Interpreter.new { Host.doubling 100 with limit := 10 }
    SameButLines (outcome (run 5 "twice(y);" i)) (outcome (run 5 "/**/twice(\ny)\n;" i)) := by
  intro i
  have same : List.Forall₂ Token.Same (Scan.ofString "twice(y);").tokens
      (Scan.ofString "/**/twice(\ny)\n;").tokens :=
    .cons ⟨rfl, rfl, rfl⟩ (.cons ⟨rfl, rfl, rfl⟩ (.cons ⟨rfl, rfl, rfl⟩ (.cons ⟨rfl, rfl, rfl⟩
      (.cons ⟨rfl, rfl, rfl⟩ .nil))))
  have blind : i.context.Blind (fun _ => True) fun _ => True := Host.doubling_blind 100 trivial _
  exact (run_layout rfl rfl same).2 5 i i blind (.refl i)

end Lox
