import Lox.Proofs.Evaluation.Moment
import Lox.Proofs.Evaluation.Simulation
import Lox.Proofs.Parts

/-!
What every evaluation keeps, proved once.

An `Invariant` says what holds of the store at every moment, how the store may change from one
moment to a later one, and what holds of the functions, of the scopes from which names are looked up
and of those in which names are declared. It has a condition for each way in which evaluation
changes the store, and `Invariant.evaluation_keeps` concludes from these that it is kept on every
way out.
-/

namespace Lox

variable {α β : Type}

inductive Value.Made (property : Function → Prop) : Value → Prop
  | nil : Made property .nil
  | bool {b} : Made property (.bool b)
  | number {x} : Made property (.number x)
  | string {s} : Made property (.string s)
  | function {f} (made : property f) : Made property (.function f)
  | native {f} : Made property (.native f)

namespace Value

variable {property : Function → Prop} {op : Token} {u v w : Value}

theorem Made.of_function (h : ∀ f, v = .function f → property f) : v.Made property := by
  cases v with
  | nil => exact .nil
  | bool => exact .bool
  | number => exact .number
  | string => exact .string
  | function f => exact .function (h f rfl)
  | native => exact .native

theorem Made.mono {more : Function → Prop} (h : v.Made property) (imp : ∀ f, property f → more f) :
    v.Made more := by
  cases h with
  | nil => exact .nil
  | bool => exact .bool
  | number => exact .number
  | string => exact .string
  | function made => exact .function (imp _ made)
  | native => exact .native

theorem made_literal (value : Literal) : value.toValue.Made property := by
  cases value with
  | nil => exact .nil
  | bool => exact .bool
  | number => exact .number
  | string => exact .string

theorem made_applyUnary (result : applyUnary op u = .ok v) : v.Made property := by
  unfold applyUnary at result
  split at result <;> cases result
  · exact .number
  · exact .bool

theorem made_compare {test : Float → Float → Bool} (result : compare op test u v = .ok w) :
    w.Made property := by
  unfold compare at result
  split at result <;> cases result
  exact .bool

theorem made_calculate {operation : Float → Float → Float}
    (result : calculate op operation u v = .ok w) : w.Made property := by
  unfold calculate at result
  split at result <;> cases result
  exact .number

theorem made_add (result : add op u v = .ok w) : w.Made property := by
  unfold add at result
  split at result <;> cases result
  · exact .number
  · exact .string

theorem made_applyBinary (result : applyBinary op u v = .ok w) : w.Made property := by
  unfold applyBinary at result
  split at result
  case h_1 | h_2 =>
    cases result
    exact .bool
  case h_3 => exact made_add result
  case h_4 | h_5 | h_6 => exact made_calculate result
  case h_7 | h_8 | h_9 | h_10 => exact made_compare result
  case h_11 => cases result

end Value

def Returned.Made (property : Function → Prop) : Returned → Prop
  | .value v => v.Made property
  | .alien _ => True

theorem Host.Gives.made {h : Host} {property : Function → Prop} (gives : h.Gives property)
    {f : Native} {calls : Nat} {arguments : List Value} {result : Returned}
    (answer : (h.act f calls arguments).answer = .returns result)
    (values : ∀ v ∈ arguments, v.Made property) : result.Made property := by
  cases result with
  | alien typeName => trivial
  | value v =>
      apply Value.Made.of_function
      rintro g rfl
      rcases gives f calls arguments g answer with argument | own
      · cases values _ argument with
        | function made => exact made
      · exact own

/-- What evaluation keeps, with the conditions under which it does. -/
structure Invariant where
  node : Expr → Prop
  store : Store → Prop
  leads : Store → Store → Prop
  function : Function → Prop
  /-- The scopes from which names are looked up. -/
  sees : Nat → Prop
  /-- The scopes in which names are declared. -/
  owns : Nat → Prop
  refl (σ : Store) : leads σ σ
  trans {σ σ' σ'' : Store} : leads σ σ' → leads σ' σ'' → leads σ σ''
  sees_of_owns {s : Nat} : owns s → sees s
  declared {s k : Nat} {name : Token} {params : List Token} {body : List Stmt} : owns s →
    (∀ e ∈ Stmt.allExpressions body, node e) → function ⟨.declared k, name, params, body, s⟩
  body {f : Function} : function f → sees f.closure ∧ ∀ e ∈ Stmt.allExpressions f.body, node e
  resolve {σ : Store} {s owner : Nat} {name : String} {v : Value} : store σ → sees s →
    σ.resolve? s name = some (owner, v) → v.Made function
  assign {σ : Store} {s owner : Nat} {name : String} {v u : Value} : store σ → sees s →
    σ.resolve? s name = some (owner, v) → u.Made function →
    store (σ.define owner name u) ∧ leads σ (σ.define owner name u)
  define {σ : Store} {s : Nat} (name : String) {u : Value} : store σ → owns s → u.Made function →
    store (σ.define s name u) ∧ leads σ (σ.define s name u)
  push {σ : Store} {s : Nat} : store σ → sees s →
    store (σ.push (some s)) ∧ leads σ (σ.push (some s)) ∧ owns σ.size

namespace Invariant

variable (V : Invariant)

def value : Value → Prop := Value.Made V.function

def completion : Completion → Prop
  | .normal => True
  | .returning v => V.value v

def Ends (rel : α → Prop) (σ : Store) : EStateM.Result Stop Machine α → Prop
  | .ok a m => V.store m.store ∧ V.leads σ m.store ∧ rel a
  | .error _ m => V.store m.store ∧ V.leads σ m.store

def Keeps (rel : α → Prop) (x : Eval α) : Prop := ∀ m, V.store m.store → V.Ends rel m.store (x m)

variable {V}

theorem Ends.since {rel : α → Prop} {σ σ' : Store} {r : EStateM.Result Stop Machine α}
    (before : V.leads σ σ') (h : V.Ends rel σ' r) : V.Ends rel σ r := by
  cases r with
  | ok a m => exact ⟨h.1, V.trans before h.2.1, h.2.2⟩
  | error stop m => exact ⟨h.1, V.trans before h.2⟩

namespace Keeps

variable {rel : α → Prop} {rel' : β → Prop} {x : Eval α}

/-! ## Steps -/

theorem after {m : Machine} (h : V.Keeps rel x) (before : V.store m.store) :
    V.store (x.after m).store ∧ V.leads m.store (x.after m).store := by
  have ends := h m before
  unfold Eval.after
  cases run : x m with
  | ok a m' =>
      rw [run] at ends
      exact ⟨ends.1, ends.2.1⟩
  | error stop m' =>
      rw [run] at ends
      exact ends

theorem pure {a : α} (h : rel a) : V.Keeps rel (Pure.pure a) :=
  fun m before => ⟨before, V.refl m.store, h⟩

theorem throw (stop : Stop) : V.Keeps rel (MonadExcept.throw stop : Eval α) :=
  fun m before => ⟨before, V.refl m.store⟩

theorem bind {f : α → Eval β} (first : V.Keeps rel x) (next : ∀ a, rel a → V.Keeps rel' (f a)) :
    V.Keeps rel' (x >>= f) := by
  intro m before
  have start := first m before
  simp only [Bind.bind, EStateM.bind]
  cases run : x m with
  | ok a m' =>
      rw [run] at start
      obtain ⟨store, leads, related⟩ := start
      exact (next a related m' store).since leads
  | error stop m' =>
      rw [run] at start
      exact start

theorem map {f : α → β} (h : V.Keeps rel x) (each : ∀ a, rel a → rel' (f a)) :
    V.Keeps rel' (f <$> x) := by
  rw [map_eq_pure_bind]
  exact h.bind fun a related => .pure (each a related)

theorem discard (h : V.Keeps rel x) : V.Keeps (fun _ => True) (Functor.discard x) :=
  h.map fun _ _ => trivial

theorem normally (h : V.Keeps rel x) :
    V.Keeps V.completion (do let _ ← x; return Completion.normal) :=
  h.bind fun _ _ => .pure trivial

theorem ite {c : Prop} [Decidable c] {x y : Eval α} (yes : V.Keeps rel x) (no : V.Keeps rel y) :
    V.Keeps rel (if c then x else y) := by
  split
  · exact yes
  · exact no

theorem ofExcept {r : Except RuntimeError α} (ok : ∀ a, r = .ok a → rel a) :
    V.Keeps rel (Eval.ofExcept r) := by
  cases r with
  | ok a => exact .pure (ok a rfl)
  | error e => exact .throw _

theorem printLine (line : String) : V.Keeps (fun _ => True) (Eval.printLine line) :=
  fun m before => ⟨before, V.refl m.store, trivial⟩

theorem openScope {s : Nat} (sees : V.sees s) : V.Keeps V.owns (Eval.openScope s) :=
  fun _ before => V.push before sees

theorem define {s : Nat} (name : String) {v : Value} (owns : V.owns s) (made : V.value v) :
    V.Keeps (fun _ => True) (Eval.define s name v) := by
  intro m before
  obtain ⟨store, leads⟩ := V.define name before owns made
  exact ⟨store, leads, trivial⟩

theorem lookup {s : Nat} (sees : V.sees s) (t : Token) :
    V.Keeps V.value (Eval.lookup s t) := by
  intro m before
  rw [Eval.lookup_eq]
  cases found : m.store.resolve? s t.lexeme with
  | none => exact ⟨before, V.refl _⟩
  | some owner => exact ⟨before, V.refl _, V.resolve before sees found⟩

theorem assign {s : Nat} (sees : V.sees s) (t : Token) {v : Value} (made : V.value v) :
    V.Keeps (fun _ => True) (Eval.assign s t v) := by
  intro m before
  rw [Eval.assign_eq]
  cases found : m.store.resolve? s t.lexeme with
  | none => exact ⟨before, V.refl _⟩
  | some owner =>
      obtain ⟨store, leads⟩ := V.assign before sees found made
      exact ⟨store, leads, trivial⟩

theorem declare {s : Nat} {name : Token} {params : List Token} {body : List Stmt} (owns : V.owns s)
    (code : ∀ e ∈ Stmt.allExpressions body, V.node e) :
    V.Keeps (fun _ => True) (Eval.declare s name params body) := by
  intro m before
  exact define name.lexeme owns (v := .function ⟨.declared m.declared, name, params, body, s⟩)
    (.function (V.declared owns code)) { m with declared := m.declared + 1 } before

theorem active {inside : Eval α} (h : V.Keeps rel inside) : V.Keeps rel (Eval.active inside) := by
  intro m before
  have ends := h { m with depth := m.depth + 1 } before
  simp only [Eval.active]
  cases run : inside { m with depth := m.depth + 1 } with
  | ok a m' =>
      rw [run] at ends
      exact ends
  | error stop m' =>
      rw [run] at ends
      exact ends

theorem guarded (paren : Token) {inside : Eval α} (h : V.Keeps rel inside) :
    V.Keeps rel (Eval.guarded paren inside) := by
  intro m before
  have ends := h m before
  rw [Eval.guarded_eq]
  split
  · rename_i run
    rwa [run] at ends
  · exact ends

theorem mapM {items : List α} {f : α → Eval β} (each : ∀ a ∈ items, V.Keeps rel' (f a)) :
    V.Keeps (fun bs => ∀ b ∈ bs, rel' b) (items.mapM f) := by
  induction items with
  | nil => exact .pure nofun
  | cons a items ih =>
      obtain ⟨first, others⟩ := List.forall_mem_cons.mp each
      rw [List.mapM_cons]
      exact first.bind fun b head => (ih others).bind fun bs tail =>
        .pure (List.forall_mem_cons.mpr ⟨head, tail⟩)

theorem forM {items : List α} {f : α → Eval PUnit} (each : ∀ a ∈ items, V.Keeps (fun _ => True) (f a)) :
    V.Keeps (fun _ => True) (items.forM f) := by
  induction items with
  | nil => exact .pure trivial
  | cons a items ih =>
      obtain ⟨first, others⟩ := List.forall_mem_cons.mp each
      exact first.bind fun _ _ => ih others

theorem andThen {x y : Eval Completion} (first : V.Keeps V.completion x)
    (next : V.Keeps V.completion y) :
    V.Keeps V.completion (do
      match ← x with
      | .normal => y
      | .returning value => return .returning value) := by
  apply first.bind
  intro completion made
  cases completion with
  | normal => exact next
  | returning value => exact .pure made

theorem sequence {step : Stmt → Eval Completion} {body : List Stmt}
    (each : ∀ s ∈ body, V.Keeps V.completion (step s)) :
    V.Keeps V.completion (Eval.sequence step body) := by
  induction body with
  | nil => exact .pure trivial
  | cons s body ih =>
      obtain ⟨first, others⟩ := List.forall_mem_cons.mp each
      exact first.andThen (ih others)

/-! ## Calls -/

variable {run : List Stmt → Nat → Eval Completion}

theorem enter {f : Function} (made : V.function f) {arguments : List Value}
    (values : ∀ v ∈ arguments, V.value v) : V.Keeps V.owns (Eval.enter f arguments) := by
  apply (openScope (V.body made).1).bind
  intro scope owns
  refine (forM ?_).bind fun _ _ => .pure owns
  rintro ⟨param, argument⟩ member
  exact .define param.lexeme owns (values argument (List.of_mem_zip member).2)

theorem applyFunction (bodies : ∀ body s, (∀ e ∈ Stmt.allExpressions body, V.node e) → V.owns s →
      V.Keeps V.completion (run body s))
    {f : Function} (made : V.function f) {arguments : List Value}
    (values : ∀ v ∈ arguments, V.value v) :
    V.Keeps V.value (Eval.applyFunction run f arguments) := by
  rw [Eval.applyFunction_eq]
  apply (enter made values).bind
  intro scope owns
  apply (bodies f.body scope (V.body made).2 owns).bind
  intro completion made
  cases completion with
  | normal => exact .pure .nil
  | returning value => exact .pure made

variable {c : Context} (gives : c.Gives V.function)
include gives

theorem applyNative (f : Native) {arguments : List Value} (values : ∀ v ∈ arguments, V.value v) :
    V.Keeps (Returned.Made V.function) (Eval.applyNative c f arguments) := by
  intro m before
  rw [Eval.applyNative_eq]
  cases answer : (c.act f m.calls arguments).answer with
  | raises e => exact ⟨before, V.refl _⟩
  | exhausts => exact ⟨before, V.refl _⟩
  | returns result => exact ⟨before, V.refl _, gives.made answer values⟩

theorem call (bodies : ∀ body s, (∀ e ∈ Stmt.allExpressions body, V.node e) →
      V.owns s → V.Keeps V.completion (run body s))
    {callee : Value} (made : V.value callee) (paren : Token) {arguments : List Value}
    (values : ∀ v ∈ arguments, V.value v) :
    V.Keeps V.value (Eval.call c run callee paren arguments) := by
  have inside : V.Keeps V.value (Eval.invoke c run callee paren arguments) := by
    cases callee with
    | function f =>
        cases made with
        | function made => exact active (guarded paren (applyFunction bodies made values))
    | native f =>
        refine (active (guarded paren (applyNative gives f values))).bind fun result made => ?_
        cases result with
        | value v => exact .pure made
        | alien typeName => exact .throw _
    | nil | bool | number | string => exact .throw _
  intro m before
  rw [Eval.call_eq]
  cases callee.arity? with
  | none => exact ⟨before, V.refl _⟩
  | some arity =>
      dsimp only
      split
      · exact ⟨before, V.refl _⟩
      · split
        · exact ⟨before, V.refl _⟩
        · exact inside m before

end Keeps

/-! ## Evaluation -/

section
variable (V) (c : Context)

def KeepsExpressions (fuel : Nat) : Prop :=
  ∀ e s, (∀ x ∈ e.parts, V.node x) → V.sees s → V.Keeps V.value (evaluate c fuel e s)

/-- Statements keep the invariant in scopes that are owned, and where they declare nothing in scopes
that are only seen. -/
def KeepsStatements (fuel : Nat) : Prop :=
  ∀ t s, (∀ x ∈ t.expressions, V.node x) → (V.owns s ∨ t.Inert ∧ V.sees s) →
    V.Keeps V.completion (execute c fuel t s)

end

variable {c : Context} {fuel : Nat} (gives : c.Gives V.function)

theorem KeepsStatements.sequence (statements : V.KeepsStatements c fuel) {body : List Stmt} {s : Nat}
    (code : ∀ x ∈ Stmt.allExpressions body, V.node x) (owns : V.owns s) :
    V.Keeps V.completion (Eval.sequence (fun t => execute c fuel t s) body) := by
  apply Keeps.sequence
  intro t member
  have part : ∀ x ∈ t.expressions, V.node x := fun x inside =>
    code x (Stmt.mem_allExpressions.mpr ⟨t, member, inside⟩)
  exact statements t s part (.inl owns)

include gives in
theorem evaluate_keeps (expressions : V.KeepsExpressions c fuel)
    (statements : V.KeepsStatements c fuel) : V.KeepsExpressions c (fuel + 1) := by
  intro e s code sees
  cases e with
  | literal value => exact .pure (Value.made_literal value)
  | grouping inner => exact expressions inner s (List.forall_mem_cons.mp code).2 sees
  | unary operator operand =>
      exact (expressions operand s (List.forall_mem_cons.mp code).2 sees).bind fun _ _ =>
        .ofExcept fun _ => Value.made_applyUnary
  | binary left operator right =>
      obtain ⟨first, second⟩ := List.forall_mem_append.mp (List.forall_mem_cons.mp code).2
      exact (expressions left s first sees).bind fun _ _ =>
        (expressions right s second sees).bind fun _ _ => .ofExcept fun _ => Value.made_applyBinary
  | logical left operator right =>
      obtain ⟨first, second⟩ := List.forall_mem_append.mp (List.forall_mem_cons.mp code).2
      exact (expressions left s first sees).bind fun _ made =>
        .ite (.pure made) (expressions right s second sees)
  | «variable» name => exact .lookup sees name
  | assign name value =>
      exact (expressions value s (List.forall_mem_cons.mp code).2 sees).bind fun _ made =>
        (Keeps.assign sees name made).bind fun _ _ => .pure made
  | call callee paren arguments =>
      obtain ⟨first, others⟩ := List.forall_mem_append.mp (List.forall_mem_cons.mp code).2
      have operands : ∀ a ∈ arguments, V.Keeps V.value (evaluate c fuel a s) := fun a member =>
        expressions a s (fun x inside => others x (Expr.mem_allParts.mpr ⟨a, member, inside⟩)) sees
      apply (expressions callee s first sees).bind
      intro f made
      apply (Keeps.mapM operands).bind
      intro vs values
      exact .call gives (fun _ _ => statements.sequence) made paren values

theorem execute_keeps (expressions : V.KeepsExpressions c fuel)
    (statements : V.KeepsStatements c fuel) : V.KeepsStatements c (fuel + 1) := by
  intro t s code place
  have sees : V.sees s := place.elim V.sees_of_owns And.right
  cases t with
  | expression value => exact (expressions value s code sees).discard.normally
  | print value =>
      exact (expressions value s code sees).bind fun _ _ => (Keeps.printLine _).normally
  | varDecl name initializer =>
      have owns : V.owns s := place.elim id fun inert => absurd inert.1 Stmt.Inert.not_varDecl
      cases initializer with
      | none => exact (Keeps.define name.lexeme owns (v := .nil) .nil).normally
      | some e =>
          exact (expressions e s code sees).bind fun _ made =>
            (Keeps.define name.lexeme owns made).normally
  | block body =>
      exact (Keeps.openScope sees).bind fun inside owns => statements.sequence code owns
  | ifElse condition whenTrue whenFalse =>
      cases whenFalse with
      | none =>
          obtain ⟨test, first⟩ := List.forall_mem_append.mp code
          refine (expressions condition s test sees).bind fun _ _ => .ite ?_ (.pure trivial)
          exact statements whenTrue s first (place.imp_right (And.imp_left .whenTrue))
      | some t =>
          obtain ⟨test, first, second⟩ : _ ∧ _ ∧ _ := by
            simpa only [Stmt.expressions, List.forall_mem_append, and_assoc] using code
          refine (expressions condition s test sees).bind fun _ _ => .ite ?_ ?_
          · exact statements whenTrue s first (place.imp_right (And.imp_left .whenTrue))
          · exact statements t s second (place.imp_right (And.imp_left .whenFalse))
  | whileLoop condition body =>
      obtain ⟨test, round⟩ := List.forall_mem_append.mp code
      refine (expressions condition s test sees).bind fun _ _ => .ite ?_ (.pure trivial)
      exact (statements body s round (place.imp_right (And.imp_left .round))).andThen
        (statements (.whileLoop condition body) s code place)
  | funDecl name params body =>
      have owns : V.owns s := place.elim id fun inert => absurd inert.1 Stmt.Inert.not_funDecl
      exact (Keeps.declare owns code).normally
  | returnStmt keyword value =>
      cases value with
      | none =>
          have made : V.completion (.returning .nil) := Value.Made.nil
          exact .pure made
      | some e => exact (expressions e s code sees).bind fun _ made => .pure made

include gives

theorem evaluation_keeps (fuel : Nat) : V.KeepsExpressions c fuel ∧ V.KeepsStatements c fuel := by
  induction fuel with
  | zero => exact ⟨fun _ _ _ _ => .throw _, fun _ _ _ _ => .throw _⟩
  | succ fuel ih => exact ⟨evaluate_keeps gives ih.1 ih.2, execute_keeps ih.1 ih.2⟩

theorem program_keeps (fuel : Nat) (owns : V.owns Interpreter.globals)
    {statements : List Stmt} (code : ∀ x ∈ Stmt.allExpressions statements, V.node x) :
    V.Keeps (fun _ => True) (Eval.program c fuel statements) := by
  apply Keeps.forM
  intro t member
  have part : ∀ x ∈ t.expressions, V.node x := fun x inside =>
    code x (Stmt.mem_allExpressions.mpr ⟨t, member, inside⟩)
  exact ((evaluation_keeps gives fuel).2 t _ part (.inl owns)).discard

end Invariant

end Lox
