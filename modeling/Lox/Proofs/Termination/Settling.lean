import Lox.Proofs.Session.Code

namespace Lox

variable {α β : Type}

inductive Stmt.LoopFree : Stmt → Prop
  | expression {e} : LoopFree (.expression e)
  | print {e} : LoopFree (.print e)
  | varDecl {name initializer} : LoopFree (.varDecl name initializer)
  | block {body} (inside : ∀ s ∈ body, LoopFree s) : LoopFree (.block body)
  | ifElse {e s o} (whenTrue : LoopFree s) (whenFalse : ∀ t ∈ o, LoopFree t) :
      LoopFree (.ifElse e s o)
  | funDecl {name params body} (inside : ∀ s ∈ body, LoopFree s) :
      LoopFree (.funDecl name params body)
  | returnStmt {keyword value} : LoopFree (.returnStmt keyword value)

def Function.LoopFree (f : Function) : Prop := ∀ s ∈ f.body, s.LoopFree

def Completion.LoopFree : Completion → Prop
  | .normal => True
  | .returning v => v.Made Function.LoopFree

/-- No function in the store has loops, and there is room for at most so many more calls. -/
structure Machine.Fits (c : Context) (room : Nat) (m : Machine) : Prop where
  store : m.store.Made Function.LoopFree
  room : c.limit ≤ ((m.depth + room : Nat) : Int)

namespace Eval

section
variable (c : Context) (room : Nat) (rel : α → Prop)

def Ends : EStateM.Result Stop Machine α → Prop
  | .ok a m => m.Fits c room ∧ rel a
  | .error _ m => m.store.Made Function.LoopFree

/-- The results for each amount of fuel: they are the same from some amount on, for which the fuel
is enough. -/
structure Settled (y : Nat → EStateM.Result Stop Machine α) : Prop where
  ends (fuel : Nat) : Ends c room rel (y fuel)
  halts : ∃ enough r, (∀ fuel, enough ≤ fuel → y fuel = r) ∧ ∀ m, r ≠ .error .outOfFuel m

def Settles (x : Nat → Eval α) : Prop :=
  ∀ m, m.Fits c room → Settled c room rel fun fuel => x fuel m

end

variable {c : Context} {room : Nat} {rel : α → Prop} {rel' : β → Prop} {x : Nat → Eval α}

theorem Settled.always {r : EStateM.Result Stop Machine α} (ends : Ends c room rel r)
    (enough : ∀ m, r ≠ .error .outOfFuel m) : Settled c room rel fun _ => r :=
  ⟨fun _ => ends, 0, r, fun _ _ => rfl, enough⟩

theorem Settled.turn {k : Nat} {y : Nat → EStateM.Result Stop Machine α} (h : Settled c k rel y)
    (turn : EStateM.Result Stop Machine α → EStateM.Result Stop Machine β)
    (ends : ∀ r, Ends c k rel r → Ends c room rel' (turn r))
    (enough : ∀ r, (∀ m, r ≠ .error .outOfFuel m) → ∀ m, turn r ≠ .error .outOfFuel m) :
    Settled c room rel' fun fuel => turn (y fuel) := by
  obtain ⟨least, r, same, never⟩ := h.halts
  exact ⟨fun fuel => ends _ (h.ends fuel), least, turn r, fun fuel le => by rw [same fuel le],
    enough r never⟩

namespace Settles

theorem always {x : Eval α} (h : ∀ m, m.Fits c room → Ends c room rel (x m) ∧
    ∀ m', x m ≠ .error .outOfFuel m') : Settles c room rel fun _ => x :=
  fun m fits => .always (h m fits).1 (h m fits).2

theorem later (start : x 0 = throw .outOfFuel)
    (h : Settles c room rel fun fuel => x (fuel + 1)) : Settles c room rel x := by
  intro m fits
  obtain ⟨ends, enough, r, same, never⟩ := h m fits
  refine ⟨fun fuel => ?_, enough + 1, r, fun fuel le => ?_, never⟩
  · cases fuel with
    | zero =>
        rw [start]
        exact fits.store
    | succ fuel => exact ends fuel
  · obtain ⟨fuel, rfl⟩ := Nat.exists_eq_add_of_le' (Nat.le_of_add_left_le le)
    exact same fuel (Nat.le_of_succ_le_succ le)

theorem pure {a : α} (h : rel a) : Settles c room rel fun _ => Pure.pure a :=
  always fun _ fits => ⟨⟨fits, h⟩, nofun⟩

theorem fail (cause : RuntimeError.Cause) (t : Token) :
    Settles c room rel fun _ => Eval.fail cause t :=
  always fun _ fits => ⟨fits.store, nofun⟩

theorem bind {f : Nat → α → Eval β} (first : Settles c room rel x)
    (next : ∀ a, rel a → Settles c room rel' fun fuel => f fuel a) :
    Settles c room rel' fun fuel => x fuel >>= f fuel := by
  intro m fits
  obtain ⟨ends, enough, r, same, never⟩ := first m fits
  constructor
  · intro fuel
    have start := ends fuel
    simp only [Bind.bind, EStateM.bind]
    cases run : x fuel m with
    | ok a m' =>
        rw [run] at start
        exact (next a start.2 m' start.1).ends fuel
    | error stop m' =>
        rw [run] at start
        exact start
  · have start := ends enough
    rw [same enough le_rfl] at start
    cases r with
    | ok a m' =>
        obtain ⟨more, r, same', never'⟩ := (next a start.2 m' start.1).halts
        refine ⟨max enough more, r, fun fuel le => ?_, never'⟩
        exact (bind_eq (same fuel (by omega))).trans (same' fuel (by omega))
    | error stop m' =>
        refine ⟨enough, .error stop m', fun fuel le => bind_stop (same fuel le), ?_⟩
        rintro _ ⟨⟩
        exact never m' rfl

theorem discard (h : Settles c room rel x) :
    Settles c room (fun _ => True) fun fuel => Functor.discard (x fuel) := by
  show Settles c room _ fun fuel => _ <$> x fuel
  simp only [map_eq_pure_bind]
  exact h.bind fun _ _ => pure trivial

theorem normally (h : Settles c room rel x) :
    Settles c room Completion.LoopFree fun fuel => do
      let _ ← x fuel
      return Completion.normal :=
  h.bind fun _ _ => pure trivial

theorem ite {p : Prop} [Decidable p] {x y : Nat → Eval α} (yes : Settles c room rel x)
    (no : Settles c room rel y) : Settles c room rel fun fuel => if p then x fuel else y fuel := by
  by_cases h : p
  · simpa only [if_pos h] using yes
  · simpa only [if_neg h] using no

theorem ofExcept {r : Except RuntimeError α} (ok : ∀ a, r = .ok a → rel a) :
    Settles c room rel fun _ => Eval.ofExcept r := by
  cases r with
  | ok a => exact pure (ok a rfl)
  | error e => exact always fun _ fits => ⟨fits.store, nofun⟩

theorem printLine (line : String) :
    Settles c room (fun _ => True) fun _ => Eval.printLine line :=
  always fun _ fits => ⟨⟨⟨fits.store, fits.room⟩, trivial⟩, nofun⟩

theorem openScope (s : Nat) : Settles c room (fun _ => True) fun _ => Eval.openScope s :=
  always fun _ fits => ⟨⟨⟨fits.store.push _, fits.room⟩, trivial⟩, nofun⟩

theorem define (s : Nat) (name : String) {v : Value} (made : v.Made Function.LoopFree) :
    Settles c room (fun _ => True) fun _ => Eval.define s name v :=
  always fun _ fits => ⟨⟨⟨fits.store.define s name made, fits.room⟩, trivial⟩, nofun⟩

theorem lookup (s : Nat) (t : Token) :
    Settles c room (Value.Made Function.LoopFree) fun _ => Eval.lookup s t := by
  apply always
  intro m fits
  rw [Eval.lookup_eq]
  cases found : m.store.resolve? s t.lexeme with
  | none => exact ⟨fits.store, nofun⟩
  | some owner =>
      obtain ⟨scope, there, bound⟩ := Store.bound_of_resolveWithin found
      exact ⟨⟨fits, fits.store _ scope _ _ there (Scope.mem_of_get? bound)⟩, nofun⟩

theorem assign (s : Nat) (t : Token) {v : Value} (made : v.Made Function.LoopFree) :
    Settles c room (fun _ => True) fun _ => Eval.assign s t v := by
  apply always
  intro m fits
  rw [Eval.assign_eq]
  cases m.store.resolve? s t.lexeme with
  | none => exact ⟨fits.store, nofun⟩
  | some owner => exact ⟨⟨⟨fits.store.define _ _ made, fits.room⟩, trivial⟩, nofun⟩

theorem declare (s : Nat) (name : Token) (params : List Token) {body : List Stmt}
    (loopFree : ∀ t ∈ body, t.LoopFree) :
    Settles c room (fun _ => True) fun _ => Eval.declare s name params body :=
  always fun _ fits =>
    ⟨⟨⟨fits.store.define s name.lexeme (.function loopFree), fits.room⟩, trivial⟩, nofun⟩

theorem mapM {items : List α} {f : Nat → α → Eval β}
    (each : ∀ a ∈ items, Settles c room rel' fun fuel => f fuel a) :
    Settles c room (fun bs => ∀ b ∈ bs, rel' b) fun fuel => items.mapM (f fuel) := by
  induction items with
  | nil => exact pure nofun
  | cons a items ih =>
      obtain ⟨first, others⟩ := List.forall_mem_cons.mp each
      simp only [List.mapM_cons]
      exact first.bind fun b head => (ih others).bind fun bs tail =>
        pure (List.forall_mem_cons.mpr ⟨head, tail⟩)

theorem forM {items : List α} {f : Nat → α → Eval PUnit}
    (each : ∀ a ∈ items, Settles c room (fun _ => True) fun fuel => f fuel a) :
    Settles c room (fun _ => True) fun fuel => items.forM (f fuel) := by
  induction items with
  | nil => exact pure trivial
  | cons a items ih =>
      obtain ⟨first, others⟩ := List.forall_mem_cons.mp each
      exact first.bind fun _ _ => ih others

theorem sequence {step : Nat → Stmt → Eval Completion} {body : List Stmt}
    (each : ∀ s ∈ body, Settles c room Completion.LoopFree fun fuel => step fuel s) :
    Settles c room Completion.LoopFree fun fuel => Eval.sequence (step fuel) body := by
  induction body with
  | nil => exact pure trivial
  | cons s body ih =>
      obtain ⟨first, others⟩ := List.forall_mem_cons.mp each
      apply first.bind
      intro completion loopFree
      cases completion with
      | normal => exact ih others
      | returning value => exact pure loopFree

theorem active (h : Settles c room rel x) :
    Settles c (room + 1) rel fun fuel => Eval.active (x fuel) := by
  intro m fits
  have inside := h { m with depth := m.depth + 1 }
    ⟨fits.store, fits.room.trans (by push_cast; omega)⟩
  refine inside.turn (fun r => Eval.active (fun _ => r) m) (fun r ends => ?_)
    fun r never m' same => ?_
  · cases r with
    | ok a m' => exact ⟨⟨ends.1.store, ends.1.room.trans (by push_cast; omega)⟩, ends.2⟩
    | error stop m' => exact ends
  · cases r with
    | ok a m' => cases same
    | error stop m' =>
        cases same
        exact never m' rfl

theorem guarded (paren : Token) (h : Settles c room rel x) :
    Settles c room rel fun fuel => Eval.guarded paren (x fuel) := by
  intro m fits
  refine (h m fits).turn (fun r => Eval.guarded paren (fun _ => r) m) (fun r ends => ?_)
    fun r never m' same => ?_
  · cases r with
    | ok a m' => exact ends
    | error stop m' => cases stop <;> exact ends
  · cases r with
    | ok a m' => cases same
    | error stop m' =>
        cases stop with
        | error e => cases same
        | exhausted => cases same
        | outOfFuel => exact never m' rfl

theorem enter (f : Function) {arguments : List Value}
    (values : ∀ v ∈ arguments, v.Made Function.LoopFree) :
    Settles c room (fun _ => True) fun _ => Eval.enter f arguments := by
  apply (openScope f.closure).bind
  intro scope _
  refine (forM ?_).bind fun _ _ => pure trivial
  rintro ⟨param, argument⟩ member
  exact define scope param.lexeme (values argument (List.of_mem_zip member).2)

theorem applyFunction {run : Nat → List Stmt → Nat → Eval Completion} {f : Function}
    (body : ∀ s, Settles c room Completion.LoopFree fun fuel => run fuel f.body s)
    {arguments : List Value} (values : ∀ v ∈ arguments, v.Made Function.LoopFree) :
    Settles c room (Value.Made Function.LoopFree) fun fuel =>
      Eval.applyFunction (run fuel) f arguments := by
  simp only [Eval.applyFunction_eq]
  refine (enter f values).bind fun scope _ => (body scope).bind fun completion loopFree => ?_
  cases completion with
  | normal => exact pure .nil
  | returning value => exact pure loopFree

variable (gives : c.Gives Function.LoopFree)
include gives

theorem applyNative (f : Native) {arguments : List Value}
    (values : ∀ v ∈ arguments, v.Made Function.LoopFree) :
    Settles c room (Returned.Made Function.LoopFree) fun _ => Eval.applyNative c f arguments := by
  apply always
  intro m fits
  rw [Eval.applyNative_eq]
  cases answer : (c.act f m.calls arguments).answer with
  | raises e => exact ⟨fits.store, nofun⟩
  | exhausts => exact ⟨fits.store, nofun⟩
  | returns result => exact ⟨⟨⟨fits.store, fits.room⟩, gives.made answer values⟩, nofun⟩

/-- Where there is no room a call fails, so its body is run only with room for one call less. -/
theorem call {run : Nat → List Stmt → Nat → Eval Completion}
    (bodies : ∀ k body s, k < room → (∀ t ∈ body, t.LoopFree) →
      Settles c k Completion.LoopFree fun fuel => run fuel body s)
    {callee : Value} (made : callee.Made Function.LoopFree) (paren : Token)
    {arguments : List Value} (values : ∀ v ∈ arguments, v.Made Function.LoopFree) :
    Settles c room (Value.Made Function.LoopFree) fun fuel =>
      Eval.call c (run fuel) callee paren arguments := by
  intro m fits
  simp only [Eval.call_eq]
  cases callee.arity? with
  | none => exact .always fits.store nofun
  | some arity =>
      dsimp only
      by_cases count : arguments.length ≠ arity
      · simp only [if_pos count]
        exact .always fits.store nofun
      by_cases full : c.limit ≤ m.depth
      · simp only [if_neg count, if_pos full]
        exact .always fits.store nofun
      obtain ⟨k, rfl⟩ : ∃ k, room = k + 1 := by
        refine Nat.exists_eq_succ_of_ne_zero ?_
        rintro rfl
        exact full fits.room
      simp only [if_neg count, if_neg full]
      have inside : Settles c (k + 1) (Value.Made Function.LoopFree) fun fuel =>
          Eval.invoke c (run fuel) callee paren arguments := by
        cases callee with
        | function f =>
            cases made with
            | function loopFree =>
                exact active (guarded paren
                  (applyFunction (fun s => bodies k f.body s (Nat.lt_succ_self k) loopFree) values))
        | native f =>
            refine (active (guarded paren (applyNative gives f values))).bind fun result made => ?_
            cases result with
            | value v => exact pure made
            | alien typeName => exact fail _ _
        | nil | bool | number | string => exact fail _ _
      exact inside m fits

end Settles

end Eval

section
variable {c : Context} {room : Nat}

def BodiesSettle (c : Context) (room : Nat) : Prop :=
  ∀ (body : List Stmt) s, (∀ t ∈ body, t.LoopFree) → Eval.Settles c room Completion.LoopFree
    fun fuel => Eval.sequence (fun t => execute c fuel t s) body

variable (gives : c.Gives Function.LoopFree) (bodies : ∀ k < room, BodiesSettle c k)
include gives bodies

theorem evaluate_settles : (e : Expr) → (s : Nat) →
    Eval.Settles c room (Value.Made Function.LoopFree) fun fuel => evaluate c fuel e s
  | .literal value, _ => .later rfl (.pure (Value.made_literal value))
  | .grouping inner, s => .later rfl (evaluate_settles inner s)
  | .unary _ operand, s => .later rfl <|
      (evaluate_settles operand s).bind fun _ _ => .ofExcept fun _ => Value.made_applyUnary
  | .binary left _ right, s => .later rfl <|
      (evaluate_settles left s).bind fun _ _ => (evaluate_settles right s).bind fun _ _ =>
        .ofExcept fun _ => Value.made_applyBinary
  | .logical left _ right, s => .later rfl <|
      (evaluate_settles left s).bind fun _ made => .ite (.pure made) (evaluate_settles right s)
  | .variable name, s => .later rfl (.lookup s name)
  | .assign name value, s => .later rfl <|
      (evaluate_settles value s).bind fun _ made => (Eval.Settles.assign s name made).bind
        fun _ _ => .pure made
  -- A call with no room left fails at once, so a body is run with less room than the call has.
  | .call callee paren arguments, s => .later rfl <|
      (evaluate_settles callee s).bind fun _ made =>
        (Eval.Settles.mapM fun a _ => evaluate_settles a s).bind fun _ values =>
          .call gives (fun k body s less => bodies k less body s) made paren values

theorem execute_settles {t : Stmt} (loopFree : t.LoopFree) (s : Nat) :
    Eval.Settles c room Completion.LoopFree fun fuel => execute c fuel t s := by
  have operand : ∀ (e : Expr) (s : Nat),
      Eval.Settles c room (Value.Made Function.LoopFree) fun fuel => evaluate c fuel e s :=
    evaluate_settles gives bodies
  induction loopFree generalizing s with
  | @expression e => exact .later rfl (operand e s).discard.normally
  | @print e => exact .later rfl ((operand e s).bind fun _ _ => (Eval.Settles.printLine _).normally)
  | @varDecl name initializer =>
      apply Eval.Settles.later rfl
      cases initializer with
      | none => exact (Eval.Settles.define s name.lexeme .nil).normally
      | some e =>
          exact (operand e s).bind fun _ made => (Eval.Settles.define s name.lexeme made).normally
  | block inside ih =>
      exact .later rfl <| (Eval.Settles.openScope s).bind fun scope _ =>
        .sequence fun t member => ih t member scope
  | @ifElse e u o whenTrue whenFalse first second =>
      apply Eval.Settles.later rfl
      simp only [execute_ifElse]
      refine (operand e s).bind fun _ _ => .ite (first s) ?_
      cases o with
      | none => exact .pure trivial
      | some v => exact second v rfl s
  | @funDecl name params body inside =>
      exact .later rfl (Eval.Settles.declare s name params inside).normally
  | @returnStmt keyword value =>
      apply Eval.Settles.later rfl
      cases value with
      | none => exact .pure .nil
      | some e => exact (operand e s).bind fun _ made => .pure made

end

section
variable {c : Context} (gives : c.Gives Function.LoopFree)
include gives

/-- By induction on the room for calls: the bodies of the functions that are called are run with
less. -/
theorem bodies_settle (room : Nat) : BodiesSettle c room := by
  induction room using Nat.strongRecOn with
  | ind room ih =>
      intro body s loopFree
      exact .sequence fun t member => execute_settles gives ih (loopFree t member) s

theorem expression_settles (room : Nat) (e : Expr) (s : Nat) :
    Eval.Settles c room (Value.Made Function.LoopFree) fun fuel => evaluate c fuel e s :=
  evaluate_settles gives (fun k _ => bodies_settle gives k) e s

theorem program_settles (room : Nat) {body : List Stmt} (loopFree : ∀ t ∈ body, t.LoopFree) :
    Eval.Settles c room (fun _ => True) fun fuel => Eval.program c fuel body :=
  .forM fun t member => (execute_settles gives (fun k _ => bodies_settle gives k)
    (loopFree t member) Interpreter.globals).discard

end

end Lox
