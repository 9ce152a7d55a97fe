import Lox.Proofs.Evaluation.Invariant
import Lox.Proofs.Evaluation.WellFormed
import Lox.Proofs.ForLoop
import Lox.Proofs.Session

namespace Lox

def Scope.names (s : Scope) : List String := s.bindings.map Prod.fst

structure Scope.Gains (names : List String) (s s' : Scope) : Prop where
  enclosing : s'.enclosing = s.enclosing
  names : s'.names = s.names ++ names

namespace Scope

variable {s s' s'' : Scope} {name : String} {v : Value}

theorem Gains.refl (s : Scope) : Gains [] s s := ⟨rfl, (List.append_nil _).symm⟩

theorem Gains.trans {names : List String} (first : Gains [] s s') (second : Gains names s' s'') :
    Gains names s s'' :=
  ⟨second.enclosing.trans first.enclosing, by rw [second.names, first.names, List.append_nil]⟩

theorem map_fst_bind (name : String) (v : Value) (bindings : List (String × Value)) :
    (bind name v bindings).map Prod.fst =
      if name ∈ bindings.map Prod.fst then bindings.map Prod.fst
      else bindings.map Prod.fst ++ [name] := by
  induction bindings with
  | nil => simp [bind]
  | cons b bindings ih =>
      obtain ⟨key, old⟩ := b
      by_cases here : key = name
      · simp [bind, here]
      · have other : name ≠ key := fun same => here same.symm
        simp only [bind, beq_iff_eq, here, if_false, List.map_cons, ih, List.mem_cons, other,
          false_or]
        split
        · rfl
        · rfl

theorem gains_put (s : Scope) (name : String) (v : Value) :
    s.Gains [] (s.put name v) ∨ s.Gains [name] (s.put name v) := by
  have names : (s.put name v).names = _ := map_fst_bind name v s.bindings
  split at names
  · exact .inl ⟨rfl, names.trans (List.append_nil _).symm⟩
  · exact .inr ⟨rfl, names⟩

theorem gains_put_of_get? (bound : s.get? name = some v) (u : Value) :
    s.Gains [] (s.put name u) := by
  have member : name ∈ s.bindings.map Prod.fst := List.mem_map_of_mem (mem_of_get? bound)
  have names : (s.put name u).names = _ := map_fst_bind name u s.bindings
  rw [if_pos member] at names
  exact ⟨rfl, names.trans (List.append_nil _).symm⟩

end Scope

namespace Store

def Keeps (n : Nat) (σ σ' : Store) : Prop :=
  ∀ i s, i < n → σ.scopes[i]? = some s → ∃ s', σ'.scopes[i]? = some s' ∧ s.Gains [] s'

def Adds (n scope : Nat) (name : String) (σ σ' : Store) : Prop :=
  ∀ i s, i < n → σ.scopes[i]? = some s →
    ∃ s', σ'.scopes[i]? = some s' ∧ (s.Gains [] s' ∨ i = scope ∧ s.Gains [name] s')

variable {n : Nat} {σ σ' σ'' : Store}

theorem Keeps.refl (σ : Store) : Keeps n σ σ := fun _ s _ found => ⟨s, found, .refl s⟩

theorem Keeps.adds (first : Keeps n σ σ') {scope : Nat} {name : String}
    (second : Adds n scope name σ' σ'') : Adds n scope name σ σ'' := by
  intro i s less found
  obtain ⟨s', found', same⟩ := first i s less found
  obtain ⟨s'', found'', gains⟩ := second i s' less found'
  exact ⟨s'', found'', gains.imp same.trans (And.imp_right same.trans)⟩

theorem Keeps.weaken (h : Keeps n σ σ') (scope : Nat) (name : String) :
    Adds n scope name σ σ' := by
  intro i s less found
  obtain ⟨s', found', same⟩ := h i s less found
  exact ⟨s', found', .inl same⟩

theorem Keeps.trans (first : Keeps n σ σ') (second : Keeps n σ' σ'') : Keeps n σ σ'' := by
  intro i s less found
  obtain ⟨s', found', same⟩ := first i s less found
  obtain ⟨s'', found'', same'⟩ := second i s' less found'
  exact ⟨s'', found'', same.trans same'⟩

theorem Keeps.push (enclosing : Option Nat) (inside : n ≤ σ.size) :
    Keeps n σ (σ.push enclosing) := by
  intro i s less found
  exact ⟨s, (scopes_push_of_lt (Nat.lt_of_lt_of_le less inside) enclosing).trans found, .refl s⟩

theorem Keeps.define_of_le {scope : Nat} (outside : n ≤ scope) (name : String) (v : Value) :
    Keeps n σ (σ.define scope name v) := by
  intro i s less found
  have other : scope ≠ i := by omega
  exact ⟨s, by rw [scopes_define, if_neg other, found], .refl s⟩

theorem Keeps.define_of_bound {owner : Nat} {scope : Scope} {name : String} {v : Value}
    (found : σ.scopes[owner]? = some scope) (bound : scope.get? name = some v) (u : Value) :
    Keeps n σ (σ.define owner name u) := by
  intro i s _ there
  by_cases here : owner = i
  · subst here
    cases found.symm.trans there
    exact ⟨scope.put name u, by rw [scopes_define, if_pos rfl, found]; rfl,
      Scope.gains_put_of_get? bound u⟩
  · exact ⟨s, by rw [scopes_define, if_neg here, there], .refl s⟩

theorem adds_define (n : Nat) (σ : Store) (scope : Nat) (name : String) (v : Value) :
    Adds n scope name σ (σ.define scope name v) := by
  intro i s _ found
  by_cases here : scope = i
  · subst here
    exact ⟨s.put name v, by rw [scopes_define, if_pos rfl, found]; rfl,
      (s.gains_put name v).imp_right fun gains => ⟨rfl, gains⟩⟩
  · exact ⟨s, by rw [scopes_define, if_neg here, found], .inl (.refl s)⟩

end Store

def Invariant.names (n : Nat) : Invariant where
  node _ := True
  store σ := n ≤ σ.size
  leads := Store.Keeps n
  function _ := True
  sees _ := True
  owns s := n ≤ s
  refl := .refl
  trans := .trans
  sees_of_owns _ := trivial
  declared _ _ := trivial
  body _ := ⟨trivial, fun _ _ => trivial⟩
  resolve _ _ _ := .of_function fun _ _ => trivial
  assign inside _ found _ := by
    obtain ⟨scope, there, bound⟩ := Store.bound_of_resolveWithin found
    exact ⟨by rw [Store.size_define]; exact inside, .define_of_bound there bound _⟩
  define name _ inside outside _ :=
    ⟨by rw [Store.size_define]; exact inside, .define_of_le outside name _⟩
  push inside _ := ⟨by rw [Store.size_push]; omega, .push _ inside, inside⟩

inductive Stmt.Declares : Stmt → Token → Prop
  | varDecl {name initializer} : Declares (.varDecl name initializer) name
  | funDecl {name params body} : Declares (.funDecl name params body) name

/-- The statements of programs: those that bind nothing where they are executed, and declarations. -/
inductive Stmt.Formed : Stmt → Prop
  | inert {s} (inert : s.Inert) : Formed s
  | varDecl {name initializer} : Formed (.varDecl name initializer)
  | funDecl {name params body} (few : params.length ≤ 255) : Formed (.funDecl name params body)

theorem Stmt.Inert.declares_nothing {s : Stmt} (inert : s.Inert) (name : Token) :
    ¬ s.Declares name := by
  rintro ⟨⟩ <;> cases inert

namespace Grammar

theorem Variable.formed {n : Nat} {ts : List Token} {s : Stmt} (h : Variable n ts s) :
    ∀ t ∈ s.parts, t.Formed := by
  cases h with
  | plain => exact List.forall_mem_singleton.mpr .varDecl
  | initialized => exact List.forall_mem_singleton.mpr .varDecl

theorem Initializer.formed {n : Nat} {ts : List Token} {first : Option Stmt}
    (h : Initializer n ts first) : ∀ s ∈ first, ∀ t ∈ s.parts, t.Formed := by
  rintro s member
  cases h with
  | absent => cases member
  | declaration _ rest =>
      cases member
      exact rest.formed
  | expression =>
      cases member
      exact List.forall_mem_singleton.mpr (.inert .expression)

mutual

theorem Declaration.formed {n : Nat} {f : Bool} {ts : List Token} {s : Stmt} :
    Declaration n f ts s → ∀ t ∈ s.parts, t.Formed
  | .varDecl _ rest => rest.formed
  | .funDecl _ _ _ _ few _ _ inside _ =>
      List.forall_mem_cons.mpr ⟨.funDecl few, inside.formed⟩
  | .statement plain => plain.formed

theorem Statement.formed {n : Nat} {f c : Bool} {ts : List Token} {s : Stmt} :
    Statement n f c ts s → ∀ t ∈ s.parts, t.Formed
  | .expression _ _ | .print _ _ _ | .returnStmt _ _ _ =>
      List.forall_mem_singleton.mpr (.inert (by constructor))
  | .block _ inside _ => List.forall_mem_cons.mpr ⟨.inert .block, inside.formed⟩
  | .ifThen _ _ _ _ whenTrue =>
      List.forall_mem_cons.mpr ⟨.inert (.ifThen whenTrue.inert), whenTrue.formed⟩
  | .ifElse _ _ _ _ whenTrue _ whenFalse =>
      List.forall_mem_cons.mpr ⟨.inert (.ifElse whenTrue.inert whenFalse.inert),
        List.forall_mem_append.mpr ⟨whenTrue.formed, whenFalse.formed⟩⟩
  | .whileLoop _ _ _ _ body =>
      List.forall_mem_cons.mpr ⟨.inert (.whileLoop body.inert), body.formed⟩
  | .forLoop _ _ initializer _ _ _ _ body =>
      Stmt.parts_forLoop (.inert (.forLoop body.inert none _ _)) (fun _ => .inert .block)
        (fun _ => .inert .expression) initializer.formed body.formed

theorem Declarations.formed {n : Nat} {f : Bool} {ts : List Token} {body : List Stmt} :
    Declarations n f ts body → ∀ t ∈ Stmt.allParts body, t.Formed
  | .nil => nofun
  | .cons head tail => List.forall_mem_append.mpr ⟨head.formed, tail.formed⟩

end

end Grammar

theorem Host.gives_any (h : Host) : h.Gives fun _ => True := fun _ _ _ _ _ => .inr trivial

section
variable (c : Context) (fuel scope : Nat) (m : Machine)

theorem evaluate_keeps_names (e : Expr) :
    Store.Keeps m.store.size m.store ((evaluate c fuel e scope).after m).store := by
  have keeps := (Invariant.evaluation_keeps (V := .names m.store.size) c.gives_any fuel).1 e scope
    (fun _ _ => trivial) trivial
  exact (keeps.after le_rfl).2

theorem execute_keeps_names {s : Stmt} (inert : s.Inert) :
    Store.Keeps m.store.size m.store ((execute c fuel s scope).after m).store := by
  have keeps := (Invariant.evaluation_keeps (V := .names m.store.size) c.gives_any fuel).2 s scope
    (fun _ _ => trivial) (.inr ⟨inert, trivial⟩)
  exact (keeps.after le_rfl).2

theorem execute_initializer {e : Expr} {stop : Stop} {m' : Machine} (name : Token)
    (stops : evaluate c fuel e scope m = .error stop m') :
    execute c (fuel + 1) (.varDecl name (some e)) scope m = .error stop m' := by
  simp only [execute, bind, EStateM.bind, stops]

theorem execute_adds_names {s : Stmt} {name : Token} (declares : s.Declares name) :
    Store.Adds m.store.size scope name.lexeme m.store ((execute c fuel s scope).after m).store := by
  cases fuel with
  | zero => exact (Store.Keeps.refl _).weaken scope _
  | succ fuel =>
      cases declares with
      | @varDecl name initializer =>
          cases initializer with
          | none => exact Store.adds_define _ _ _ _ _
          | some e =>
              have keeps := evaluate_keeps_names c fuel scope m e
              unfold Eval.after at keeps ⊢
              cases run : evaluate c fuel e scope m with
              | ok v m' =>
                  rw [run] at keeps
                  simp only [execute, bind, EStateM.bind, run]
                  exact keeps.adds (Store.adds_define _ _ _ _ _)
              | error stop m' =>
                  rw [run] at keeps
                  rw [execute_initializer c fuel scope m name run]
                  exact keeps.weaken scope _
      | funDecl => exact Store.adds_define _ _ _ _ _

end

/-- Evaluation, whatever it ends in, leaves the scopes that were there before with the links and the
names that they had. Only a declaration adds a name: its own, where it is executed, and only if its
initializer has a value. -/
theorem scopes_keep_names {depth : Nat} {source : String} {body : List Stmt}
    (compiled : Program.compile depth source = .ok body) (c : Context) (fuel scope : Nat)
    (m : Machine) :
    let n := m.store.size
    (∀ e ∈ Stmt.allExpressions body,
        Store.Keeps n m.store ((evaluate c fuel e scope).after m).store) ∧
      ∀ s ∈ Stmt.allParts body,
        ((∀ name, ¬ s.Declares name) →
            Store.Keeps n m.store ((execute c fuel s scope).after m).store) ∧
          (∀ name, s.Declares name →
            Store.Adds n scope name.lexeme m.store ((execute c fuel s scope).after m).store) ∧
          ∀ name e, s = .varDecl name (some e) → ∀ stop m', evaluate c fuel e scope m = .error stop m' →
            execute c (fuel + 1) s scope m = .error stop m' ∧ Store.Keeps n m.store m'.store := by
  intro n
  obtain ⟨-, derived⟩ := Program.compile_eq_ok.mp compiled
  refine ⟨fun e _ => evaluate_keeps_names c fuel scope m e, fun s part => ⟨fun other => ?_,
    fun name declares => execute_adds_names c fuel scope m declares, ?_⟩⟩
  · cases derived.formed s part with
    | inert inert => exact execute_keeps_names c fuel scope m inert
    | varDecl => exact absurd .varDecl (other _)
    | funDecl => exact absurd .funDecl (other _)
  · rintro name e rfl stop m' stops
    have keeps := evaluate_keeps_names c fuel scope m e
    rw [Eval.after, stops] at keeps
    exact ⟨execute_initializer c fuel scope m name stops, keeps⟩

theorem scopes_keep_names_raised :
    let c : Context := { Host.doubling 100 with limit := 10 }
    let start := (Interpreter.new c).machine
    let x : Token := ⟨.identifier, "x", .nil, 1⟩
    let twice : Token := ⟨.identifier, "twice", .nil, 1⟩
    let paren : Token := ⟨.rightParen, ")", .nil, 1⟩
    let declaration : Stmt := .varDecl x (some (.call (.variable twice) paren [.literal .nil]))
    let after := (execute c 5 declaration 0).after start
    Store.Keeps 1 start.store after.store ∧ (after.store.get? 0 "x").isNone = true := by
  intro c start x twice paren declaration after
  have compiled : Program.compile 100 "var x = twice(nil);" = .ok [declaration] := rfl
  obtain ⟨stop, m', stops⟩ : ∃ stop m', evaluate c 4 (.call (.variable twice) paren [.literal .nil]) 0
      start = .error stop m' := ⟨_, _, rfl⟩
  have ends := ((scopes_keep_names compiled c 4 0 start).2 _ (.head _)).2.2 x _ rfl stop m' stops
  have after_eq : after = m' := congrArg final ends.1
  exact ⟨after_eq ▸ ends.2, by decide +kernel⟩

end Lox
