import Lox.Proofs.Evaluation.Renaming

/-!
The `while` form of a `for` statement does what the loop itself does.

`ForLoop.run` is the loop without detours: one scope, the initializer, and rounds of the test, the
body and the increment in this scope. The `while` form opens a further scope in each round that has
an increment and none where there is no initializer; these scopes stay empty, since the body of a
loop is never a bare declaration.
-/

namespace Lox

/-- The clauses and the body of a `for` statement. -/
structure ForLoop where
  initializer : Option Stmt
  condition : Option Expr
  increment : Option Expr
  body : Stmt

namespace ForLoop

def tree (loop : ForLoop) : Stmt :=
  .forLoop loop.initializer loop.condition loop.increment loop.body

def test (c : Context) (fuel : Nat) (loop : ForLoop) (scope : Nat) : Eval Bool :=
  match loop.condition with
  | none => return true
  | some e => Value.truthy <$> evaluate c fuel e scope

def advance (c : Context) (fuel : Nat) (loop : ForLoop) (scope : Nat) : Eval Completion :=
  match loop.increment with
  | none => return .normal
  | some e => do
      discard (evaluate c fuel e scope)
      return .normal

def round (c : Context) (fuel : Nat) (loop : ForLoop) (scope : Nat) : Eval Completion := do
  match ← execute c fuel loop.body scope with
  | .normal => advance c fuel loop scope
  | .returning value => return .returning value

def rounds (c : Context) (loop : ForLoop) (scope : Nat) : (fuel : Nat) → Eval Completion
  | 0 => throw .outOfFuel
  | fuel + 1 => do
      if ← test c fuel loop scope then
        match ← round c fuel loop scope with
        | .normal => rounds c loop scope fuel
        | .returning value => return .returning value
      else
        return .normal

def start (c : Context) (fuel : Nat) (loop : ForLoop) (scope : Nat) : Eval Unit :=
  match loop.initializer with
  | none => return
  | some first => discard (execute c fuel first scope)

def run (c : Context) (fuel : Nat) (loop : ForLoop) (scope : Nat) : Eval Completion := do
  let inside ← Eval.openScope scope
  start c fuel loop inside
  rounds c loop inside fuel

/-! ## The loop only goes on -/

section
variable (c : Context) (fuel : Nat) (loop : ForLoop) (scope : Nat)

theorem test_lasts : (test c fuel loop scope).Lasts := by
  unfold test
  cases loop.condition with
  | none => exact .pure _
  | some e => exact ((evaluation_lasts c fuel).1 e scope).map _

theorem advance_lasts : (advance c fuel loop scope).Lasts := by
  unfold advance
  cases loop.increment with
  | none => exact .pure _
  | some e => exact ((evaluation_lasts c fuel).1 e scope).discard.normally

theorem round_lasts : (round c fuel loop scope).Lasts :=
  ((evaluation_lasts c fuel).2 loop.body scope).andThen (advance_lasts c fuel loop scope)

theorem rounds_lasts : (rounds c loop scope fuel).Lasts := by
  induction fuel with
  | zero => exact .throw _
  | succ fuel ih =>
      apply (test_lasts c fuel loop scope).bind
      intro b
      exact .ite ((round_lasts c fuel loop scope).andThen ih) (.pure _)

end

/-! ## Scopes that stay empty -/

variable {own : Nat → Prop}

section
variable {α β : Type} {cut : Stop → Prop} {w : Links} {rel : Links → α → β → Prop} {s s' : Nat}

theorem open_left {f : Nat → Eval α} {y : Eval β} (sees : w.Sees s s')
    (next : ∀ v t, w ≤ v → v.Sees t s' → (Worlds.renaming (· = ·) own).Simulates cut v rel (f t) y) :
    (Worlds.renaming (· = ·) own).Simulates cut w rel (Eval.openScope s >>= f) y := by
  intro v m m' le machines
  have sees' := sees.mono le
  have later := v.le_skipLeft m.store.size s
  have there : (v.skipLeft m.store.size s).Sees m.store.size s' :=
    .left (.inr ⟨rfl, rfl⟩) (sees'.mono later)
  have opened : (Worlds.renaming (· = ·) own).Machines (v.skipLeft m.store.size s)
      { m with store := m.store.push (some s) } m' :=
    ⟨⟨machines.stores.1.pushLeft sees', fun t there => later.1 _ _ (machines.stores.2 t there)⟩,
      machines.declared, machines.calls, machines.depth,
      machines.output⟩
  have follows := next _ _ (le_trans le later) there _ _ m' le_rfl opened
  exact follows.weaken later

theorem open_right {x : Eval α} {g : Nat → Eval β} (sees : w.Sees s s')
    (next : ∀ v t, w ≤ v → v.Sees s t → (Worlds.renaming (· = ·) own).Simulates cut v rel x (g t)) :
    (Worlds.renaming (· = ·) own).Simulates cut w rel x (Eval.openScope s' >>= g) := by
  intro v m m' le machines
  have sees' := sees.mono le
  have later := v.le_skipRight m'.store.size s'
  have there : (v.skipRight m'.store.size s').Sees s m'.store.size :=
    .right (.inr ⟨rfl, rfl⟩) (sees'.mono later)
  have opened : (Worlds.renaming (· = ·) own).Machines (v.skipRight m'.store.size s') m
      { m' with store := m'.store.push (some s') } :=
    ⟨⟨machines.stores.1.pushRight sees', fun t there => later.1 _ _ (machines.stores.2 t there)⟩,
      machines.declared, machines.calls, machines.depth,
      machines.output⟩
  have follows := next _ _ (le_trans le later) there _ m _ le_rfl opened
  exact follows.weaken later

end

/-! ## The parts of the `while` form -/

theorem bind_completion (x : Eval Completion) :
    (do
      match ← x with
      | .normal => return .normal
      | .returning value => return .returning value) = x := by
  have ends : (fun completion : Completion => (match completion with
      | .normal => return .normal
      | .returning value => return .returning value : Eval Completion)) = pure := by
    funext completion
    cases completion <;> rfl
  show x >>= _ = x
  rw [ends, bind_pure]

theorem sequence_pair (step : Stmt → Eval Completion) (a b : Stmt) :
    Eval.sequence step [a, b] = do
      match ← step a with
      | .normal => step b
      | .returning value => return .returning value := by
  simp only [Eval.sequence]
  congr 1
  funext completion
  cases completion with
  | returning value => rfl
  | normal => exact bind_completion (step b)

theorem execute_block (c : Context) (fuel : Nat) (body : List Stmt) (scope : Nat) :
    execute c (fuel + 1) (.block body) scope = (do
      let inside ← Eval.openScope scope
      Eval.sequence (fun s => execute c fuel s inside) body) := rfl

variable {c : Context} {loop : ForLoop}

def roundTree (loop : ForLoop) : Stmt :=
  match loop.increment with
  | some step => .block [loop.body, .expression step]
  | none => loop.body

def whileTree (loop : ForLoop) : Stmt :=
  .whileLoop (loop.condition.getD (.literal (.bool true))) loop.roundTree

theorem tree_eq (loop : ForLoop) :
    loop.tree = match loop.initializer with
      | some first => .block [first, loop.whileTree]
      | none => loop.whileTree := rfl

abbrev completions (w : Links) : Completion → Completion → Prop := Completion.Alike (· = ·) w.Sees

theorem contexts {cut : Stop → Prop} (blind : c.Blind (fun _ => True) own)
    (whole : ¬ cut .exhausted) : (Worlds.renaming (· = ·) own).Contexts cut c c :=
  .of_blind faithful_eq rfl blind (fun _ _ => rfl) (fun stores s there => .same (stores.2 s there))
    (.inl rfl) whole

section
variable {cut : Stop → Prop} {n n' : Nat} {w : Links} {s s' : Nat}
variable (blind : c.Blind (fun _ => True) own) (whole : ¬ cut .exhausted)
include blind whole

theorem statement_simulates (fuels : Fuels cut n n') (t : Stmt)
    (place : w.same s s' ∨ t.Inert ∧ w.Sees s s') :
    (Worlds.renaming (· = ·) own).Simulates cut w completions (execute c n t s)
      (execute c n' t s') := by
  have runs := Worlds.run_simulates faithful_eq (contexts blind whole) fuels
  exact runs.2 w t t s s' (.refl (fun _ => rfl) t) place

theorem expression_simulates (fuels : Fuels cut n n') (e : Expr)
    (sees : w.Sees s s') :
    (Worlds.renaming (· = ·) own).Simulates cut w (Worlds.renaming (· = ·) own).values
      (evaluate c n e s) (evaluate c n' e s') := by
  have runs := Worlds.run_simulates faithful_eq (contexts blind whole) fuels
  exact runs.1 w e e s s' (.refl (fun _ => rfl) e) sees

end

/-! ## Rounds -/

/-- One evaluation does what the other one does, up to scopes that stay empty and for as long as its
fuel lasts. -/
abbrev Follows {α β : Type} (own : Nat → Prop) (w : Links) (rel : Links → α → β → Prop)
    (x : Eval α) (y : Eval β) :
    Prop :=
  (Worlds.renaming (· = ·) own).Simulates (· = .outOfFuel) w rel x y

theorem throw_follows {α β : Type} {w : Links} {rel : Links → α → β → Prop} {y : Eval β}
    (lasts : y.Lasts) : Follows own w rel (throw .outOfFuel) y :=
  .cut_throw rfl lasts

variable (blind : c.Blind (fun _ => True) own)
include blind

section
variable {n n' : Nat} {w : Links} {s s' : Nat}

theorem expression_follows (le : n ≤ n') (e : Expr) (sees : w.Sees s s') :
    Follows own w (Worlds.renaming (· = ·) own).values (evaluate c n e s) (evaluate c n' e s') := by
  have fuels : Fuels (· = .outOfFuel) n n' := .inr ⟨le, rfl⟩
  exact expression_simulates blind nofun fuels e sees

theorem statement_follows (le : n ≤ n') (t : Stmt) (place : w.same s s' ∨ t.Inert ∧ w.Sees s s') :
    Follows own w completions (execute c n t s) (execute c n' t s') := by
  have fuels : Fuels (· = .outOfFuel) n n' := .inr ⟨le, rfl⟩
  exact statement_simulates blind nofun fuels t place

theorem whileTest_follows (le : n ≤ n') (sees : w.Sees s s') :
    Follows own w (fun _ v b => v.truthy = b)
      (evaluate c n (loop.condition.getD (.literal (.bool true))) s) (test c n' loop s') := by
  unfold test
  cases loop.condition with
  | none =>
      cases n with
      | zero => exact throw_follows (.pure _)
      | succ n => exact .pure fun _ _ => rfl
  | some e =>
      rw [← id_map (evaluate c n _ s)]
      apply (expression_follows blind le e sees).map
      · intro _ _ _ value
        exact value.truthy
      · exact fun le => Worlds.values_mono le

theorem test_follows (le : n + 1 ≤ n') (sees : w.Sees s s') :
    Follows own w (fun _ b v => b = v.truthy) (test c n loop s)
      (evaluate c n' (loop.condition.getD (.literal (.bool true))) s') := by
  unfold test
  cases loop.condition with
  | none =>
      obtain ⟨k, rfl⟩ : ∃ k, n' = k + 1 := ⟨n' - 1, by omega⟩
      exact .pure fun _ _ => rfl
  | some e =>
      rw [← id_map (evaluate c n' _ s')]
      apply (expression_follows blind (Nat.le_of_succ_le le) e sees).map
      · intro _ _ _ value
        exact value.truthy
      · exact fun le => Worlds.values_mono le

theorem whileRound_follows (inert : loop.body.Inert) (le : n ≤ n') (sees : w.Sees s s') :
    Follows own w completions (execute c n loop.roundTree s) (round c n' loop s') := by
  have body := fun t => (evaluation_lasts c n').2 t s'
  unfold roundTree round advance
  cases loop.increment with
  | none =>
      dsimp only
      rw [bind_completion]
      exact statement_follows blind le loop.body (.inr ⟨inert, sees⟩)
  | some e =>
      have lasts := ((evaluation_lasts c n').1 e s').discard.normally
      cases n with
      | zero => exact throw_follows ((body loop.body).andThen lasts)
      | succ n =>
          have less := Nat.le_of_succ_le le
          simp only [execute_block, sequence_pair]
          apply open_left sees
          intro v inside later sees
          apply (statement_follows blind less loop.body (.inr ⟨inert, sees⟩)).andThen
          · intro u later
            have sees := sees.mono later
            cases n with
            | zero => exact throw_follows lasts
            | succ n =>
                exact (expression_follows blind (Nat.le_of_succ_le less) e sees).discard.normally
          · exact lasts

theorem round_follows (inert : loop.body.Inert) (le : n + 2 ≤ n') (sees : w.Sees s s') :
    Follows own w completions (round c n loop s) (execute c n' loop.roundTree s') := by
  unfold roundTree round advance
  cases loop.increment with
  | none =>
      dsimp only
      rw [bind_completion]
      exact statement_follows blind (by omega) loop.body (.inr ⟨inert, sees⟩)
  | some e =>
      obtain ⟨k, rfl⟩ : ∃ k, n' = k + 2 := ⟨n' - 2, by omega⟩
      simp only [execute_block, sequence_pair]
      apply open_right sees
      intro v inside later sees
      apply (statement_follows blind (by omega) loop.body (.inr ⟨inert, sees⟩)).andThen
      · intro u later
        have sees := sees.mono later
        exact (expression_follows blind (by omega) e sees).discard.normally
      · exact (evaluation_lasts c (k + 1)).2 (.expression e) inside

theorem whileTree_follows (inert : loop.body.Inert) (le : n ≤ n') (sees : w.Sees s s') :
    Follows own w completions (execute c n loop.whileTree s) (rounds c loop s' n') := by
  induction n generalizing n' w with
  | zero => exact throw_follows (rounds_lasts c n' loop s')
  | succ n ih =>
      obtain ⟨k, rfl⟩ : ∃ k, n' = k + 1 := ⟨n' - 1, by omega⟩
      have less := Nat.le_of_succ_le_succ le
      have lasts := rounds_lasts c k loop s'
      apply (whileTest_follows blind less sees).bind
      · intro v a b later truthy
        rw [truthy]
        split
        · apply (whileRound_follows blind inert less (sees.mono later)).andThen
          · intro u later'
            exact ih less (sees.mono (le_trans later later'))
          · exact lasts
        · exact .pure fun _ _ => .normal
      · intro _
        exact .ite ((round_lasts c k loop s').andThen lasts) (.pure _)

theorem rounds_follow (inert : loop.body.Inert) (le : n + 3 ≤ n') (sees : w.Sees s s') :
    Follows own w completions (rounds c loop s n) (execute c n' loop.whileTree s') := by
  induction n generalizing n' w with
  | zero => exact throw_follows ((evaluation_lasts c n').2 loop.whileTree s')
  | succ n ih =>
      obtain ⟨k, rfl⟩ : ∃ k, n' = k + 1 := ⟨n' - 1, by omega⟩
      have executes := fun t => (evaluation_lasts c k).2 t s'
      -- A round takes two units of fuel more in the `while` form, one for its block and one for the
      -- increment in it; the missing condition takes one as a literal.
      apply (test_follows blind (by omega) sees).bind
      · intro v a b later truthy
        rw [truthy]
        split
        · apply (round_follows blind inert (by omega) (sees.mono later)).andThen
          · intro u later'
            exact ih (by omega) (sees.mono (le_trans later later'))
          · exact executes _
        · exact .pure fun _ _ => .normal
      · intro _
        exact .ite ((executes _).andThen (executes _)) (.pure _)

end

/-! ## Loops -/

inductive Plain : Stmt → Prop
  | varDecl {name initializer} : Plain (.varDecl name initializer)
  | expression {e} : Plain (.expression e)

omit blind in
theorem Plain.normal {t : Stmt} (plain : Plain t) {n scope : Nat} {completion : Completion}
    {m m' : Machine} (run : execute c n t scope m = .ok completion m') : completion = .normal := by
  cases n with
  | zero => cases run
  | succ n =>
      cases plain with
      | @varDecl name initializer =>
          cases initializer with
          | none =>
              obtain ⟨u, m₁, -, run⟩ := bind_ok.mp run
              exact (pure_ok.mp run).1
          | some e =>
              obtain ⟨v, m₁, -, run⟩ := bind_ok.mp run
              obtain ⟨u, m₂, -, run⟩ := bind_ok.mp run
              exact (pure_ok.mp run).1
      | expression =>
          obtain ⟨v, m₁, -, run⟩ := bind_ok.mp run
          exact (pure_ok.mp run).1

omit blind in
theorem Plain.execute_eq {t : Stmt} (plain : Plain t) (c : Context) (n scope : Nat) :
    execute c n t scope = (do discard (execute c n t scope); return .normal) := by
  funext m
  cases run : execute c n t scope m with
  | ok completion m' =>
      obtain rfl := plain.normal run
      exact (bind_eq (f := fun _ => pure Completion.normal) (discard_eq run)).symm
  | error stop m' => exact (bind_error.mpr (.inl (discard_error.mpr run))).symm

section
variable {n n' : Nat} {w : Links} {s s' : Nat}
variable (plain : ∀ first ∈ loop.initializer, Plain first) (inert : loop.body.Inert)
include plain inert

theorem tree_follows (le : n ≤ n') (sees : w.Sees s s') :
    Follows own w completions (execute c n loop.tree s) (run c n' loop s') := by
  rw [tree_eq]
  unfold run start
  cases first : loop.initializer with
  | none =>
      apply open_right sees
      intro v inside later sees
      exact whileTree_follows blind inert le sees
  | some t =>
      have loops : ∀ inside, Eval.Lasts (do
          discard (execute c n' t inside)
          rounds c loop inside n') := fun inside =>
        ((evaluation_lasts c n').2 t inside).discard.bind fun _ => rounds_lasts c n' loop inside
      cases n with
      | zero => exact throw_follows ((Eval.Lasts.openScope s').bind loops)
      | succ n =>
          have less := Nat.le_of_succ_le le
          simp only [execute_block, sequence_pair]
          apply (Worlds.Simulates.openScope sees).bind
          · intro v inside inside' later same
            -- The block goes on after the initializer only if that does not return, the loop in any case.
            rw [(plain t first).execute_eq c n inside, bind_assoc]
            apply (statement_follows blind less t (.inl same)).discard.bind
            · intro u _ _ later' _
              rw [pure_bind]
              exact whileTree_follows blind inert less (.same (later'.1 _ _ same))
            · intro _
              exact rounds_lasts c n' loop inside'
          · exact loops

theorem run_follow (le : n + 4 ≤ n') (sees : w.Sees s s') :
    Follows own w completions (run c n loop s) (execute c n' loop.tree s') := by
  rw [tree_eq]
  unfold run start
  obtain ⟨k, rfl⟩ : ∃ k, n' = k + 1 := ⟨n' - 1, by omega⟩
  have executes := (evaluation_lasts c k).2
  cases first : loop.initializer with
  | none =>
      apply open_left sees
      intro v inside later sees
      exact rounds_follow blind inert (by omega) sees
  | some t =>
      simp only [execute_block, sequence_pair]
      apply (Worlds.Simulates.openScope sees).bind
      · intro v inside inside' later same
        rw [(plain t first).execute_eq c k inside', bind_assoc]
        apply (statement_follows blind (by omega) t (.inl same)).discard.bind
        · intro u _ _ later' _
          rw [pure_bind]
          exact rounds_follow blind inert (by omega) (.same (later'.1 _ _ same))
        · intro _
          rw [pure_bind]
          exact executes loop.whileTree inside'
      · intro inside
        exact (executes t inside).andThen (executes loop.whileTree inside)

end

end ForLoop

end Lox
