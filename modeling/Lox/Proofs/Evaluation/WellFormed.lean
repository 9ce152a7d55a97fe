import Lox.Proofs.Evaluation.Simulation

namespace Lox

def Value.Within (n : Nat) (v : Value) : Prop :=
  v.Alike (· = ·) (fun s s' => s = s' ∧ s < n) v

def Store.Layered (σ : Store) : Prop :=
  ∀ ⦃s e : Nat⦄ ⦃scope : Scope⦄, σ.scopes[s]? = some scope → scope.enclosing = some e → e < s

structure Store.WellFormed (σ : Store) : Prop where
  older : σ.Layered
  values {s : Nat} {scope : Scope} {name : String} {v : Value} :
    σ.scopes[s]? = some scope → (name, v) ∈ scope.bindings → v.Within σ.size

theorem Scope.mem_put {s : Scope} {name other : String} {v u : Value}
    (h : (other, u) ∈ (s.put name v).bindings) : u = v ∨ (other, u) ∈ s.bindings := by
  obtain ⟨enclosing, bindings⟩ := s
  change (other, u) ∈ bind name v bindings at h
  change _ ∨ (other, u) ∈ bindings
  induction bindings with
  | nil => simp_all [bind]
  | cons b bindings ih =>
      rw [bind] at h
      split at h
      · rcases List.mem_cons.mp h with same | old
        · cases same
          exact .inl rfl
        · exact .inr (.tail _ old)
      · rcases List.mem_cons.mp h with same | old
        · exact .inr (same ▸ .head _)
        · exact (ih old).imp_right (.tail _)

namespace Store

variable {σ : Store}

theorem lt_size {s : Nat} {scope : Scope} (h : σ.scopes[s]? = some scope) : s < σ.size :=
  (Array.getElem?_eq_some_iff.mp h).1

theorem getElem?_of_lt {s : Nat} (h : s < σ.size) : ∃ scope, σ.scopes[s]? = some scope :=
  ⟨_, Array.getElem?_eq_getElem h⟩

theorem scopes_push (σ : Store) (enclosing : Option Nat) (s : Nat) :
    (σ.push enclosing).scopes[s]? = if s = σ.size then some { enclosing } else σ.scopes[s]? := by
  rw [Store.push, Array.getElem?_push]
  rfl

theorem of_define {s t : Nat} {name : String} {v : Value} {scope : Scope}
    (found : (σ.define s name v).scopes[t]? = some scope) :
    ∃ old, σ.scopes[t]? = some old ∧ old.enclosing = scope.enclosing ∧
      ∀ other u, (other, u) ∈ scope.bindings → u = v ∨ (other, u) ∈ old.bindings := by
  rw [scopes_define] at found
  split at found
  · obtain ⟨old, there, rfl⟩ := Option.map_eq_some_iff.mp found
    exact ⟨old, there, rfl, fun _ _ => Scope.mem_put⟩
  · exact ⟨scope, found, rfl, fun _ _ => .inr⟩

theorem Layered.resolveWithin (older : σ.Layered) (name : String) {length s : Nat}
    (long : s < length) :
    σ.resolveWithin name length s = σ.resolve? s name := by
  unfold Store.resolve?
  induction s using Nat.strongRecOn generalizing length with
  | ind s ih =>
      cases length with
      | zero => omega
      | succ length =>
          rw [Store.resolveWithin, Store.resolveWithin]
          cases found : σ.scopes[s]? with
          | none => rfl
          | some scope =>
              dsimp only
              cases scope.get? name with
              | some value => rfl
              | none =>
                  cases outer : scope.enclosing with
                  | none => rfl
                  | some e =>
                      have less := older found outer
                      exact (ih e less (by omega)).trans (ih e less less).symm

theorem Layered.resolve? (older : σ.Layered) {s : Nat} {scope : Scope}
    (found : σ.scopes[s]? = some scope) (name : String) :
    σ.resolve? s name = match scope.get? name, scope.enclosing with
      | some value, _ => some (s, value)
      | none, some e => σ.resolve? e name
      | none, none => none := by
  rw [Store.resolve?, Store.resolveWithin, found]
  dsimp only
  cases scope.get? name with
  | some value => rfl
  | none =>
      cases outer : scope.enclosing with
      | none => rfl
      | some e => exact older.resolveWithin name (older found outer)

theorem Layered.define (older : σ.Layered) (s : Nat) (name : String) (v : Value) :
    (σ.define s name v).Layered := by
  intro t e scope found outer
  obtain ⟨old, there, same, -⟩ := of_define found
  exact older there (same.trans outer)

theorem Layered.push (older : σ.Layered) {enclosing : Option Nat}
    (inside : ∀ e ∈ enclosing, e < σ.size) : (σ.push enclosing).Layered := by
  intro t e scope found outer
  rw [scopes_push] at found
  split at found
  · rename_i new
    cases found
    exact new ▸ inside e outer
  · exact older found outer

end Store

theorem Scope.mem_of_get? {s : Scope} {name : String} {v : Value} (h : s.get? name = some v) :
    (name, v) ∈ s.bindings := by
  obtain ⟨before, after, bindings, -⟩ := List.lookup_eq_some_iff.mp h
  simp [bindings]

theorem Store.resolveWithin_some {σ : Store} {name : String} {length s owner : Nat} {v : Value}
    (found : σ.resolveWithin name (length + 1) s = some (owner, v)) :
    ∃ scope, σ.scopes[s]? = some scope ∧ (s = owner ∧ scope.get? name = some v ∨
      ∃ e, scope.enclosing = some e ∧ σ.resolveWithin name length e = some (owner, v)) := by
  rw [resolveWithin] at found
  cases here : σ.scopes[s]? with
  | none =>
      rw [here] at found
      cases found
  | some scope =>
      rw [here] at found
      dsimp only at found
      refine ⟨scope, rfl, ?_⟩
      split at found
      · rename_i value
        cases found
        exact .inl ⟨rfl, value⟩
      · rename_i outer
        exact .inr ⟨_, outer, found⟩
      · cases found

theorem Store.bound_of_resolveWithin {σ : Store} {name : String} {length s owner : Nat} {v : Value}
    (found : σ.resolveWithin name length s = some (owner, v)) :
    ∃ scope, σ.scopes[owner]? = some scope ∧ scope.get? name = some v := by
  induction length generalizing s with
  | zero => cases found
  | succ length ih =>
      obtain ⟨scope, here, ⟨rfl, value⟩ | ⟨e, -, rest⟩⟩ := resolveWithin_some found
      · exact ⟨scope, here, value⟩
      · exact ih rest

namespace Store.WellFormed

variable {σ : Store}

theorem define (h : σ.WellFormed) (s : Nat) (name : String) {v : Value} (within : v.Within σ.size) :
    (σ.define s name v).WellFormed := by
  refine ⟨h.older.define s name v, fun {t scope other u} found member => ?_⟩
  rw [size_define]
  obtain ⟨old, there, -, values⟩ := of_define found
  rcases values _ _ member with rfl | before
  · exact within
  · exact h.values there before

theorem push (h : σ.WellFormed) {s : Nat} (inside : s < σ.size) :
    (σ.push (some s)).WellFormed := by
  refine ⟨h.older.push (by simpa using inside),
    fun {t scope name v} found member => ?_⟩
  rw [scopes_push] at found
  split at found
  · cases found
    cases member
  · refine (h.values found member).mono fun s s' within => ⟨within.1, ?_⟩
    rw [size_push]
    omega

theorem resolve? (h : σ.WellFormed) {s owner : Nat} {name : String} {v : Value}
    (found : σ.resolve? s name = some (owner, v)) : owner < σ.size ∧ v.Within σ.size := by
  obtain ⟨scope, there, bound⟩ := bound_of_resolveWithin found
  exact ⟨lt_size there, h.values there (Scope.mem_of_get? bound)⟩

end Store.WellFormed

def Worlds.wellFormed (least : Nat) : Worlds (· = ·) Nat where
  sees n s s' := s = s' ∧ s < n
  same n s s' := s = s' ∧ s < n
  stores n σ σ' := σ = σ' ∧ σ.WellFormed ∧ σ.size = n ∧ least ≤ n
  sees_mono le := And.imp_right fun less => Nat.lt_of_lt_of_le less le
  same_mono le := And.imp_right fun less => Nat.lt_of_lt_of_le less le
  sees_of_same := id
  resolve := by
    rintro n σ _ s _ name ⟨rfl, wellFormed, rfl, -⟩ ⟨rfl, -⟩
    cases found : σ.resolve? s name with
    | none => exact .none
    | some x =>
        obtain ⟨inside, within⟩ := wellFormed.resolve? found
        exact .some ⟨⟨rfl, inside⟩, within⟩
  define := by
    rintro n σ _ s _ name v v' ⟨rfl, wellFormed, rfl, enough⟩ ⟨rfl, -⟩ value
    have same : v = v' := (value.mono fun _ _ => And.left).eq
    subst same
    exact ⟨rfl, wellFormed.define s name value, Store.size_define .., enough⟩
  push := by
    rintro n σ _ s _ ⟨rfl, wellFormed, rfl, enough⟩ ⟨rfl, inside⟩
    exact ⟨σ.size + 1, Nat.le_succ _, ⟨rfl, wellFormed.push inside, Store.size_push ..,
      Nat.le_succ_of_le enough⟩, rfl, Nat.lt_succ_self _⟩

def Function.Within (n : Nat) (g : Function) : Prop := g.closure < n

theorem Worlds.Contexts.wellFormed {least : Nat} {c : Context}
    (gives : c.Gives (Function.Within least)) :
    (Worlds.wellFormed least).Contexts (fun _ => False) c c :=
  .of_gives gives (fun same => (same.mono fun _ _ => And.left).eq)
    (fun stores _ own => ⟨rfl, Nat.lt_of_lt_of_le own stores.2.2.2⟩) id

theorem Worlds.Simulates.wellFormed {α : Type} {rel : Nat → α → α → Prop} {x : Eval α} {m : Machine}
    (h : (Worlds.wellFormed m.store.size).Simulates (fun _ => False) m.store.size rel x x)
    (before : m.store.WellFormed) : (x.after m).store.WellFormed := by
  have follows := h m.store.size m m le_rfl ⟨⟨rfl, before, rfl, le_rfl⟩, rfl, rfl, rfl, rfl⟩
  rw [Eval.after]
  cases run : x m with
  | ok a m' =>
      rw [run] at follows
      obtain ⟨_, _, n, -, -, -, machines⟩ := follows
      exact machines.stores.2.1
  | error stop m' =>
      rw [run] at follows
      rcases follows with ⟨_, _, n, -, -, -, machines⟩ | ⟨short, -⟩
      · exact machines.stores.2.1
      · exact short.elim

section
variable {c : Context} (fuel : Nat) {m : Machine} (gives : c.Gives (Function.Within m.store.size))
  (before : m.store.WellFormed)
include gives before

theorem evaluate_wellFormed (e : Expr) {scope : Nat} (inside : scope < m.store.size) :
    ((evaluate c fuel e scope).after m).store.WellFormed :=
  Worlds.Simulates.wellFormed ((Worlds.run_simulates faithful_eq (.wellFormed gives) (.inl rfl)).1 _
    e e scope scope (.refl (fun _ => rfl) e) ⟨rfl, inside⟩) before

theorem execute_wellFormed (s : Stmt) {scope : Nat} (inside : scope < m.store.size) :
    ((execute c fuel s scope).after m).store.WellFormed :=
  Worlds.Simulates.wellFormed ((Worlds.run_simulates faithful_eq (.wellFormed gives) (.inl rfl)).2 _
    s s scope scope (.refl (fun _ => rfl) s) (.inl ⟨rfl, inside⟩)) before

theorem program_wellFormed (statements : List Stmt) (inside : Interpreter.globals < m.store.size) :
    ((Eval.program c fuel statements).after m).store.WellFormed :=
  Worlds.Simulates.wellFormed (Worlds.program_simulates faithful_eq (.wellFormed gives) (.inl rfl)
    ⟨rfl, inside⟩ (Stmt.Alike.refls (fun _ => rfl) statements)) before

end

theorem Interpreter.new_wellFormed (context : Context) :
    (Interpreter.new context).machine.store.WellFormed ∧
      Interpreter.globals < (Interpreter.new context).machine.store.size := by
  have defines : ∀ (fs : List Native) (σ : Store), σ.WellFormed ∧ σ.size = 1 →
      (fs.foldl (fun σ f => σ.define globals f.name (.native f)) σ).WellFormed ∧
        (fs.foldl (fun σ f => σ.define globals f.name (.native f)) σ).size = 1 := by
    intro fs
    induction fs with
    | nil => exact fun σ h => h
    | cons f fs ih =>
        intro σ h
        refine ih _ ⟨h.1.define _ _ .native, ?_⟩
        rw [Store.size_define, h.2]
  have start : (Store.push {} none).WellFormed ∧ (Store.push {} none).size = 1 := by
    refine ⟨⟨fun s e scope found outer => ?_, fun {s scope name v} found member => ?_⟩, rfl⟩
    all_goals
      rw [Store.scopes_push] at found
      split at found
      · cases found
        first | cases outer | cases member
      · cases found
  obtain ⟨wellFormed, size⟩ := defines context.natives _ start
  exact ⟨wellFormed, size ▸ Nat.zero_lt_one⟩

end Lox
