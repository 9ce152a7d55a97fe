import Lox.Proofs.ForLoop.Rounds
import Lox.Proofs.Grammar.Lookahead

namespace Lox

theorem Stmt.Inert.forLoop {body : Stmt} (inert : body.Inert) (initializer : Option Stmt)
    (condition increment : Option Expr) :
    (Stmt.forLoop initializer condition increment body).Inert := by
  cases initializer with
  | some first => exact .block
  | none =>
      cases increment with
      | some step => exact .whileLoop .block
      | none => exact .whileLoop inert

namespace Grammar

theorem Statement.inert {n : Nat} {f c : Bool} {ts : List Token} {t : Stmt}
    (h : Statement n f c ts t) : t.Inert := by
  induction n generalizing c ts t with
  | zero => cases h
  | succ n ih =>
      cases h with
      | expression => exact .expression
      | print => exact .print
      | block => exact .block
      | ifThen _ _ _ _ whenTrue => exact .ifThen (ih whenTrue)
      | ifElse _ _ _ _ whenTrue _ whenFalse => exact .ifElse (ih whenTrue) (ih whenFalse)
      | whileLoop _ _ _ _ body => exact .whileLoop (ih body)
      | forLoop _ _ _ _ _ _ _ body => exact (ih body).forLoop _ _ _
      | returnStmt => exact .returnStmt

theorem Initializer.plain {n : Nat} {ts : List Token} {first : Option Stmt}
    (h : Initializer n ts first) : ∀ t ∈ first, ForLoop.Plain t := by
  rintro t member
  cases h with
  | absent => cases member
  | declaration _ rest =>
      cases member
      cases rest with
      | plain => exact .varDecl
      | initialized => exact .varDecl
  | expression =>
      cases member
      exact .expression

/-- The tokens of a `for` statement and the loop that they stand for. -/
inductive ForStatement (n : Nat) (f c : Bool) : List Token → ForLoop → Prop
  | mk {word opening is first ts condition semicolon us step closing vs s}
      (fors : word.kind = .forWord) (opens : opening.kind = .leftParen)
      (initializer : Initializer n is first) (test : Clause n ts condition)
      (mark : semicolon.kind = .semicolon) (increment : Clause n us step)
      (closes : closing.kind = .rightParen) (body : Statement n f c vs s) :
      ForStatement n f c (word :: opening :: is ++ ts ++ semicolon :: us ++ closing :: vs)
        ⟨first, condition, step, s⟩

theorem Statement.of_for {n : Nat} {f c : Bool} {word : Token} {rest : List Token} {t : Stmt}
    (h : Statement n f c (word :: rest) t) (fors : word.kind = .forWord) :
    ∃ k loop, n = k + 1 ∧ ForStatement k f c (word :: rest) loop ∧ t = loop.tree := by
  generalize tokens : word :: rest = ts at h
  have other : ∀ {first : Token} {others : List Token}, word :: rest = first :: others →
      first.kind = .forWord := fun same => (List.cons.inj same).1 ▸ fors
  cases h with
  | @expression _ _ _ _ _ close value closes =>
      have begins := faces_append value.begins [close] beginsExpression
      rw [← tokens, value.begins, faces_cons, fors] at begins
      cases begins
  | forLoop fors opens initializer test mark increment closes body =>
      exact ⟨_, _, rfl, .mk fors opens initializer test mark increment closes body, rfl⟩
  | print word | block word | ifThen word | ifElse word | whileLoop word | returnStmt word =>
      cases (other tokens).symm.trans word

end Grammar

structure Machine.Agrees (size : Nat) (w : Links) (m m' : Machine) : Prop where
  linked : Links.identity size ≤ w
  machines : (Worlds.renaming (· = ·) (· < size)).Machines w m m'
  names {s : Nat} (old : s < size) (name : String) :
    Option.Rel (fun x x' => w.same x.1 x'.1 ∧ x.2.Alike (· = ·) w.Sees x'.2)
      (m.store.resolve? s name) (m'.store.resolve? s name)

/-- The second run ends as the first one does, unless the first one runs out of fuel: then it printed
no more than the second one. -/
def Completion.Agrees (size : Nat) :
    EStateM.Result Stop Machine Completion → EStateM.Result Stop Machine Completion → Prop
  | .ok a m, y => ∃ b m' w, y = .ok b m' ∧ a.Alike (· = ·) w.Sees b ∧ m.Agrees size w m'
  | .error .outOfFuel m, y => m.output.toList <+: (final y).output.toList
  | .error stop m, y => ∃ m' w, y = .error stop m' ∧ m.Agrees size w m'

/-- A scope without variables of its own, in which names mean what they mean outside. -/
def Store.Transparent (σ : Store) (s outside : Nat) : Prop :=
  σ.scopes[s]? = some { enclosing := some outside } ∧
    ∀ name, σ.resolve? s name = σ.resolve? outside name

namespace ForLoop
open Grammar

theorem agrees {size : Nat} {w : Links} {m m' : Machine} (linked : Links.identity size ≤ w)
    (machines : (Worlds.renaming (· = ·) (· < size)).Machines w m m') : m.Agrees size w m' :=
  ⟨linked, machines, fun {s} old name =>
    machines.stores.1.resolve name (.same (linked.1 s s ⟨rfl, old⟩))⟩

theorem identity_stores {m : Machine} (wellFormed : m.store.WellFormed) :
    (Worlds.renaming (· = ·) (· < m.store.size)).stores (Links.identity m.store.size) m.store
      m.store :=
  ⟨Links.Stores.identity wellFormed, fun _ inside => ⟨rfl, inside⟩⟩

theorem completion_agrees {x y : Eval Completion} {m : Machine} (wellFormed : m.store.WellFormed)
    (h : Follows (· < m.store.size) (Links.identity m.store.size) completions x y) :
    Completion.Agrees m.store.size (x m) (y m) := by
  have follows := h _ m m le_rfl ⟨identity_stores wellFormed, rfl, rfl, rfl, rfl⟩
  cases run : x m with
  | ok a m₁ =>
      rw [run] at follows
      obtain ⟨b, m₂, w, run', le, alike, machines⟩ := follows
      exact ⟨b, m₂, w, run', alike, agrees le machines⟩
  | error stop m₁ =>
      rw [run] at follows
      rcases follows with ⟨stop', m₂, w, run', le, alike, machines⟩ | ⟨rfl, output⟩
      · cases Stop.Alike.eq alike
        cases stop with
        | error e => exact ⟨m₂, w, run', agrees le machines⟩
        | exhausted => exact ⟨m₂, w, run', agrees le machines⟩
        | outOfFuel =>
            rw [run', Completion.Agrees, machines.output]
            exact List.prefix_refl _
      · exact output

theorem transparent {α β : Type} {rel : Links → α → β → Prop} {x : Eval α} {y : Eval β}
    {m : Machine} {inside : Nat} (wellFormed : m.store.WellFormed) (place : inside < m.store.size)
    (h : ∀ w, w.Sees m.store.size inside →
      (Worlds.renaming (· = ·) (· < m.store.size)).Simulates (fun _ => False) w rel x y) :
    (x.after { m with store := m.store.push (some inside) }).store.Transparent
      m.store.size inside := by
  have sees : (Links.identity m.store.size).Sees inside inside := .same ⟨rfl, place⟩
  have there : ((Links.identity m.store.size).skipLeft m.store.size inside).Sees
      m.store.size inside :=
    .left (.inr ⟨rfl, rfl⟩) (sees.mono (Links.le_skipLeft _ _ _))
  have later := (Links.identity m.store.size).le_skipLeft m.store.size inside
  have start : (Worlds.renaming (· = ·) (· < m.store.size)).Machines
      ((Links.identity m.store.size).skipLeft m.store.size inside)
      { m with store := m.store.push (some inside) } m :=
    ⟨⟨(Links.Stores.identity wellFormed).pushLeft sees, fun _ there => later.1 _ _ ⟨rfl, there⟩⟩,
      rfl, rfl, rfl, rfl⟩
  have follows := h _ there _ _ m le_rfl start
  -- The new scope is linked as one that stays empty, and the links only grow.
  have kept : ∀ {w m₁ m₂}, (Links.identity m.store.size).skipLeft m.store.size inside ≤ w →
      (Worlds.renaming (· = ·) (· < m.store.size)).Machines w m₁ m₂ →
      m₁.store.Transparent m.store.size inside := by
    intro w m₁ m₂ le machines
    have empty := machines.stores.1.left.empty (le.2.1 _ _ (.inr ⟨rfl, rfl⟩))
    exact ⟨empty, fun name => machines.stores.1.left.older.resolve? empty name⟩
  rw [Eval.after]
  cases run : x { m with store := m.store.push (some inside) } with
  | ok a m₁ =>
      rw [run] at follows
      obtain ⟨_, _, w, -, le, -, machines⟩ := follows
      exact kept le machines
  | error stop m₁ =>
      rw [run] at follows
      rcases follows with ⟨_, _, w, -, le, -, machines⟩ | ⟨short, -⟩
      · exact kept le machines
      · exact short.elim

section
variable {c : Context} (fuel : Nat) {body : Stmt} (inert : body.Inert)
include inert

theorem round_simulates {own : Nat → Prop} (blind : c.Blind (fun _ => True) own) (e : Expr)
    {w : Links} {s s' : Nat} (sees : w.Sees s s') :
    (Worlds.renaming (· = ·) own).Simulates (fun _ => False) w completions
      (Eval.body c fuel [body, .expression e] s) (Eval.body c fuel [body, .expression e] s') := by
  simp only [Eval.body, sequence_pair]
  apply (statement_simulates blind id (.inl rfl) body (.inr ⟨inert, sees⟩)).andThen
  · intro v le
    exact statement_simulates blind id (.inl rfl) (.expression e) (.inr ⟨.expression, sees.mono le⟩)
  · exact (evaluation_lasts c fuel).2 (.expression e) s'

theorem round_transparent {m : Machine} (blind : c.Blind (fun _ => True) (· < m.store.size))
    (step : Expr) {inside : Nat} (wellFormed : m.store.WellFormed) (place : inside < m.store.size) :
    ((execute c fuel body m.store.size).after
        { m with store := m.store.push (some inside) }).store.Transparent m.store.size inside ∧
      ((execute c (fuel + 1) (.block [body, .expression step]) inside).after
        m).store.Transparent m.store.size inside :=
  ⟨transparent wellFormed place fun _ sees =>
      statement_simulates blind id (.inl rfl) body (.inr ⟨inert, sees⟩),
    transparent wellFormed place fun _ sees => round_simulates fuel inert blind step sees⟩

end

/-- The tree of a `for` statement does what the loop does that its tokens stand for, and with some
fuel more the loop is as good as its tree. The scope that a round opens for the body and the
increment has no variables when either is done. -/
theorem tree_agrees {n : Nat} {f closed : Bool} {word : Token} {rest : List Token} {t : Stmt}
    (derived : Statement n f closed (word :: rest) t) (fors : word.kind = .forWord) :
    ∃ k loop, n = k + 1 ∧ ForStatement k f closed (word :: rest) loop ∧ t = loop.tree ∧
      ∀ (c : Context) (m : Machine), c.Blind (fun _ => True) (· < m.store.size) →
        m.store.WellFormed → ∀ scope, scope < m.store.size →
        (∀ fuel fuel', fuel ≤ fuel' → Completion.Agrees m.store.size
          (execute c fuel t scope m) (loop.run c fuel' scope m)) ∧
        (∀ fuel fuel', fuel + 4 ≤ fuel' → Completion.Agrees m.store.size
          (loop.run c fuel scope m) (execute c fuel' t scope m)) ∧
        ∀ step ∈ loop.increment, ∀ fuel,
          ((execute c fuel loop.body m.store.size).after
            { m with store := m.store.push (some scope) }).store.Transparent m.store.size scope ∧
          ((execute c (fuel + 1) (.block [loop.body, .expression step]) scope).after
            m).store.Transparent m.store.size scope := by
  obtain ⟨k, loop, size, written, rfl⟩ := derived.of_for fors
  refine ⟨k, loop, size, written, rfl, fun c m blind wellFormed scope place => ?_⟩
  -- What the grammar says of the clauses: the initializer does not return, and the body is no bare
  -- declaration.
  obtain ⟨plain, inert⟩ : (∀ first ∈ loop.initializer, Plain first) ∧ loop.body.Inert := by
    cases written with
    | mk _ _ initializer _ _ _ _ body => exact ⟨initializer.plain, body.inert⟩
  have sees : (Links.identity m.store.size).Sees scope scope := .same ⟨rfl, place⟩
  refine ⟨fun fuel fuel' le => ?_, fun fuel fuel' le => ?_, fun step _ fuel => ?_⟩
  · exact completion_agrees wellFormed (tree_follows blind plain inert le sees)
  · exact completion_agrees wellFormed (run_follow blind plain inert le sees)
  · exact round_transparent fuel inert blind step wellFormed place

theorem tree_agrees_once :
    let name : Token := ⟨.identifier, "i", .nil, 1⟩
    let mark (kind : Token.Kind) : Token := ⟨kind, "", .nil, 1⟩
    let string : Token := ⟨.string, "\"a\"", .string "a", 1⟩
    let tokens := [mark .forWord, mark .leftParen, mark .varWord, name, mark .equal, string,
      mark .semicolon, name, mark .semicolon, name, mark .equal, mark .nilWord, mark .rightParen,
      mark .printWord, name, mark .semicolon]
    let t := Stmt.forLoop (some (.varDecl name (some (.literal (.string "a")))))
      (some (.variable name)) (some (.assign name (.literal .nil))) (.print (.variable name))
    let c : Context := { Host.doubling 100 with limit := 10 }
    let m := (Interpreter.new c).machine
    ∃ k loop, ForStatement k true true tokens loop ∧ t = loop.tree ∧
      Completion.Agrees 1 (execute c 9 t 0 m) (loop.run c 9 0 m) ∧
      ((execute c 9 t 0).after m).output.toList = ["a"] := by
  intro name mark string tokens t c m
  have named : ∀ n, Phrase (n + 10) .assignment [name] (.variable name) := fun n =>
    .ofName rfl (Nat.le_add_left 10 n)
  have derived : Statement 12 true true tokens t :=
    .forLoop rfl rfl (.declaration rfl (.initialized rfl rfl
      (.ofPrimary (.literal rfl) (by decide)) rfl)) (.present (named 1)) rfl
      (.present (.assign rfl rfl (.ofPrimary (.literal rfl) (by decide)))) rfl
      (.print rfl (named 0) rfl)
  have wellFormed := Interpreter.new_wellFormed c
  obtain ⟨k, loop, -, written, same, agrees⟩ := tree_agrees derived rfl
  have blind : c.Blind (fun _ => True) (· < m.store.size) := Host.doubling_blind 100 trivial _
  exact ⟨k, loop, written, same,
    (agrees c m blind wellFormed.1 0 wellFormed.2).1 9 9 (Nat.le_refl 9), by decide +kernel⟩

end ForLoop

end Lox
