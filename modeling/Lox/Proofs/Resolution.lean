import Lox.Proofs.Evaluation.WellFormed

namespace Lox

namespace Store

def cell (σ : Store) (s : Nat) (name : String) : Option Value := (σ.scopes[s]?).bind (·.get? name)

def outer (σ : Store) (s : Nat) : Option Nat := (σ.scopes[s]?).bind Scope.enclosing

inductive Leads (σ : Store) : (s : Nat) → (passed : List Nat) → (t : Nat) → Prop
  | here {s} : Leads σ s [] s
  | outer {s e passed t} (link : σ.outer s = some e) (rest : Leads σ e passed t) :
      Leads σ s (s :: passed) t

/-- The chain of a scope gets to another one before any other scope that binds a name. -/
def Exposes (σ : Store) (s : Nat) (name : String) (t : Nat) : Prop :=
  ∃ passed, σ.Leads s passed t ∧ ∀ u ∈ passed, σ.cell u name = none

/-- The nearest scope on the chain of a scope that binds a name. -/
def Owner (σ : Store) (s : Nat) (name : String) (owner : Nat) : Prop :=
  σ.Exposes s name owner ∧ ∃ v, σ.cell owner name = some v

structure Sets (σ : Store) (s : Nat) (name : String) (v : Value) (σ' : Store) : Prop where
  size : σ'.size = σ.size
  outer (t : Nat) : σ'.outer t = σ.outer t
  cell : σ'.cell s name = some v
  others {t : Nat} {other : String} : ¬ (t = s ∧ other = name) → σ'.cell t other = σ.cell t other

inductive Operation where
  | create (enclosing : Option Nat)
  | define (scope : Nat) (name : String) (value : Value)
  | assign (scope : Nat) (name : String) (value : Value)
  | get (scope : Nat) (name : String)

def Operation.Possible (σ : Store) : Operation → Prop
  | .create enclosing => ∀ e ∈ enclosing, e < σ.size
  | .define scope _ _ | .assign scope _ _ | .get scope _ => scope < σ.size

instance (σ : Store) : DecidablePred (Operation.Possible σ)
  | .create enclosing => inferInstanceAs (Decidable (∀ e ∈ enclosing, e < σ.size))
  | .define scope _ _ | .assign scope _ _ | .get scope _ =>
      inferInstanceAs (Decidable (scope < σ.size))

def Operation.apply (σ : Store) : Operation → Store
  | .create enclosing => σ.push enclosing
  | .define scope name value => σ.define scope name value
  | .assign scope name value => (σ.assign? scope name value).getD σ
  | .get _ _ => σ

def after (past : List Operation) : Store := past.foldl Operation.apply {}

inductive History : List Operation → Prop
  | nil : History []
  | next {past op} (before : History past) (possible : op.Possible (after past)) :
      History (past ++ [op])

inductive Stores (σ : Store) : Operation → (s : Nat) → (name : String) → Value → Prop
  | define {s name v} : Stores σ (.define s name v) s name v
  | assign {s name v owner} (means : σ.Owner s name owner) :
      Stores σ (.assign s name v) owner name v

/-- The value that was stored in a variable last. -/
def StoredLast (past : List Operation) (s : Nat) (name : String) (v : Value) : Prop :=
  ∃ before op later, past = before ++ op :: later ∧ Stores (after before) op s name v ∧
    ∀ between next rest, later = between ++ next :: rest →
      ∀ u, ¬ Stores (after (before ++ op :: between)) next s name u

variable {σ σ' : Store} {s t owner : Nat} {name other : String} {v : Value}

/-! ## Resolution -/

theorem Layered.outer_lt (older : σ.Layered) {e : Nat} (link : σ.outer s = some e) : e < s := by
  obtain ⟨scope, found, outer⟩ := Option.bind_eq_some_iff.mp link
  exact older found outer

theorem Layered.resolve?_eq (older : σ.Layered) (s : Nat) (name : String) :
    σ.resolve? s name = match σ.cell s name, σ.outer s with
      | some v, _ => some (s, v)
      | none, some e => σ.resolve? e name
      | none, none => none := by
  unfold cell outer
  cases found : σ.scopes[s]? with
  | none =>
      rw [Store.resolve?, Store.resolveWithin, found]
      rfl
  | some scope => exact older.resolve? found name

theorem Layered.get?_eq (older : σ.Layered) (s : Nat) (name : String) :
    σ.get? s name = match σ.cell s name, σ.outer s with
      | some v, _ => some v
      | none, some e => σ.get? e name
      | none, none => none := by
  unfold Store.get?
  rw [older.resolve?_eq]
  cases σ.cell s name with
  | some v => rfl
  | none => cases σ.outer s <;> rfl

theorem Exposes.outer {e : Nat} (unbound : σ.cell s name = none) (link : σ.outer s = some e)
    (exposes : σ.Exposes e name t) : σ.Exposes s name t := by
  obtain ⟨passed, leads, free⟩ := exposes
  exact ⟨s :: passed, .outer link leads, List.forall_mem_cons.mpr ⟨unbound, free⟩⟩

theorem Layered.resolve?_eq_some (older : σ.Layered) :
    σ.resolve? s name = some (owner, v) ↔ σ.Exposes s name owner ∧ σ.cell owner name = some v := by
  constructor
  · intro found
    induction s using Nat.strongRecOn with
    | ind s ih =>
        rw [older.resolve?_eq] at found
        cases bound : σ.cell s name with
        | some u =>
            rw [bound] at found
            cases found
            exact ⟨⟨[], .here, nofun⟩, bound⟩
        | none =>
            cases link : σ.outer s with
            | none =>
                rw [bound, link] at found
                cases found
            | some e =>
                rw [bound, link] at found
                obtain ⟨exposes, value⟩ := ih e (older.outer_lt link) found
                exact ⟨exposes.outer bound link, value⟩
  · rintro ⟨⟨passed, leads, free⟩, value⟩
    induction leads with
    | here => rw [older.resolve?_eq, value]
    | outer link _ ih =>
        obtain ⟨unbound, free⟩ := List.forall_mem_cons.mp free
        rw [older.resolve?_eq, unbound, link]
        exact ih value free

theorem Layered.get?_eq_some (older : σ.Layered) :
    σ.get? s name = some v ↔ ∃ owner, σ.Owner s name owner ∧ σ.cell owner name = some v := by
  constructor
  · intro value
    obtain ⟨⟨owner, _⟩, found, rfl⟩ := Option.map_eq_some_iff.mp value
    obtain ⟨exposes, bound⟩ := older.resolve?_eq_some.mp found
    exact ⟨owner, ⟨exposes, _, bound⟩, bound⟩
  · rintro ⟨owner, ⟨exposes, -⟩, bound⟩
    exact Option.map_eq_some_iff.mpr ⟨_, older.resolve?_eq_some.mpr ⟨exposes, bound⟩, rfl⟩

theorem Owner.unique (older : σ.Layered) {first second : Nat} (h : σ.Owner s name first)
    (h' : σ.Owner s name second) : first = second := by
  obtain ⟨exposes, v, bound⟩ := h
  obtain ⟨exposes', u, bound'⟩ := h'
  have found := older.resolve?_eq_some.mpr ⟨exposes, bound⟩
  rw [older.resolve?_eq_some.mpr ⟨exposes', bound'⟩] at found
  cases found
  rfl

/-! ## Writing -/

theorem cell_push (σ : Store) (enclosing : Option Nat) (s : Nat) (name : String) :
    (σ.push enclosing).cell s name = σ.cell s name := by
  unfold cell
  rw [scopes_push]
  split
  · rename_i new
    have missing : σ.scopes[s]? = none := Array.getElem?_eq_none (Nat.le_of_eq new.symm)
    rw [missing]
    rfl
  · rfl

theorem outer_push (σ : Store) (enclosing : Option Nat) (s : Nat) :
    (σ.push enclosing).outer s = if s = σ.size then enclosing else σ.outer s := by
  unfold outer
  rw [scopes_push]
  split <;> rfl

theorem sets_define (inside : s < σ.size) (name : String) (v : Value) :
    σ.Sets s name v (σ.define s name v) := by
  obtain ⟨scope, found⟩ := getElem?_of_lt inside
  have here : (σ.define s name v).scopes[s]? = some (scope.put name v) := by
    rw [scopes_define, if_pos rfl, found]
    rfl
  refine ⟨size_define .., fun t => ?_, ?_, fun {t other} apart => ?_⟩
  · unfold outer
    rw [scopes_define]
    split
    · cases σ.scopes[t]? <;> rfl
    · rfl
  · unfold cell
    rw [here, Option.bind_some, Scope.get?_put, if_pos rfl]
  · unfold cell
    by_cases same : s = t
    · subst same
      rw [here, found, Option.bind_some, Option.bind_some, Scope.get?_put,
        if_neg fun equal => apart ⟨rfl, equal⟩]
    · rw [scopes_define, if_neg same]

theorem Layered.assign?_eq_some (older : σ.Layered) :
    σ.assign? s name v = some σ' ↔ ∃ owner, σ.Owner s name owner ∧ σ' = σ.define owner name v := by
  constructor
  · intro assigned
    obtain ⟨⟨owner, u⟩, found, rfl⟩ := Option.map_eq_some_iff.mp assigned
    obtain ⟨exposes, bound⟩ := older.resolve?_eq_some.mp found
    exact ⟨owner, ⟨exposes, u, bound⟩, rfl⟩
  · rintro ⟨owner, ⟨exposes, u, bound⟩, rfl⟩
    exact Option.map_eq_some_iff.mpr ⟨_, older.resolve?_eq_some.mpr ⟨exposes, bound⟩, rfl⟩

theorem lt_size_of_cell (bound : σ.cell s name = some v) : s < σ.size := by
  obtain ⟨scope, found, -⟩ := Option.bind_eq_some_iff.mp bound
  exact lt_size found

theorem Owner.sets (means : σ.Owner s name owner) (v : Value) :
    σ.Sets owner name v (σ.define owner name v) := by
  obtain ⟨-, u, bound⟩ := means
  exact sets_define (lt_size_of_cell bound) name v

namespace Sets

theorem layered (h : σ.Sets s name v σ') (older : σ.Layered) : σ'.Layered := by
  intro t e scope found link
  have outer : σ'.outer t = some e := Option.bind_eq_some_iff.mpr ⟨scope, found, link⟩
  rw [h.outer] at outer
  exact older.outer_lt outer

theorem get?_exposed (h : σ.Sets s name v σ') (older : σ.Layered) (exposes : σ.Exposes t name s) :
    σ'.get? t name = some v := by
  obtain ⟨passed, leads, free⟩ := exposes
  induction leads with
  | here => rw [(h.layered older).get?_eq, h.cell]
  | @outer t e passed s link leads ih =>
      obtain ⟨unbound, free⟩ := List.forall_mem_cons.mp free
      rw [(h.layered older).get?_eq]
      by_cases same : t = s
      · subst same
        rw [h.cell]
      · rw [h.others fun both => same both.1, unbound, h.outer, link]
        exact ih h free

theorem get?_others (h : σ.Sets s name v σ') (older : σ.Layered)
    (apart : ¬ (other = name ∧ σ.Exposes t name s)) : σ'.get? t other = σ.get? t other := by
  induction t using Nat.strongRecOn with
  | ind t ih =>
      have elsewhere : ¬ (t = s ∧ other = name) := by
        rintro ⟨rfl, rfl⟩
        exact apart ⟨rfl, [], .here, nofun⟩
      rw [(h.layered older).get?_eq, older.get?_eq, h.others elsewhere, h.outer]
      cases unbound : σ.cell t other with
      | some u => rfl
      | none =>
          cases link : σ.outer t with
          | none => rfl
          | some e =>
              refine ih e (older.outer_lt link) ?_
              rintro ⟨rfl, exposes⟩
              exact apart ⟨rfl, exposes.outer unbound link⟩

theorem seen (h : σ.Sets s name v σ') (older : σ.Layered) (t : Nat) (other : String) :
    (other = name ∧ σ.Exposes t name s → σ'.get? t other = some v) ∧
      (¬ (other = name ∧ σ.Exposes t name s) → σ'.get? t other = σ.get? t other) := by
  refine ⟨?_, h.get?_others older⟩
  rintro ⟨rfl, exposes⟩
  exact h.get?_exposed older exposes

end Sets

theorem Layered.assigned (older : σ.Layered) (assigned : σ.assign? s name v = some σ') :
    ∃ owner, σ.Owner s name owner ∧ σ.Sets owner name v σ' ∧ ∀ t other,
      (other = name ∧ σ.Owner t name owner → σ'.get? t other = some v) ∧
      (¬ (other = name ∧ σ.Owner t name owner) → σ'.get? t other = σ.get? t other) := by
  obtain ⟨owner, means, rfl⟩ := older.assign?_eq_some.mp assigned
  have sets := means.sets v
  -- The variable is bound already, so where the chain gets to it first it is the one that is meant.
  have owned (t : Nat) : σ.Owner t name owner ↔ σ.Exposes t name owner :=
    and_iff_left means.2
  refine ⟨owner, means, sets, fun t other => ?_⟩
  rw [owned t]
  exact sets.seen older t other

/-! ## Histories -/

theorem after_append (past : List Operation) (op : Operation) :
    after (past ++ [op]) = op.apply (after past) := by
  rw [after, List.foldl_append]
  rfl

theorem History.layered {past : List Operation} (h : History past) : (after past).Layered := by
  induction h with
  | nil =>
      intro s e scope found
      cases found
  | @next past op _ possible older =>
      rw [after_append]
      cases op with
      | create enclosing => exact older.push possible
      | define scope name value => exact older.define scope name value
      | get => exact older
      | assign scope name value =>
          rw [Operation.apply, assign?]
          cases (after past).resolve? scope name with
          | none => exact older
          | some x => exact older.define x.1 name value

theorem cell_of_stores {op : Operation} (older : σ.Layered) (possible : op.Possible σ)
    (stores : Stores σ op s name v) : (op.apply σ).cell s name = some v := by
  cases stores with
  | define => exact (sets_define possible name v).cell
  | @assign scope _ _ owner means =>
      have assigned : σ.assign? scope name v = some (σ.define s name v) :=
        older.assign?_eq_some.mpr ⟨s, means, rfl⟩
      rw [Operation.apply, assigned]
      exact (means.sets v).cell

theorem cell_of_not_stores {op : Operation} (older : σ.Layered) (possible : op.Possible σ)
    (never : ∀ v, ¬ Stores σ op s name v) : (op.apply σ).cell s name = σ.cell s name := by
  cases op with
  | create enclosing => exact cell_push σ enclosing s name
  | get => rfl
  | define scope other value =>
      apply (sets_define possible other value).others
      rintro ⟨rfl, rfl⟩
      exact never value .define
  | assign scope other value =>
      rw [Operation.apply]
      cases assigned : σ.assign? scope other value with
      | none => rfl
      | some σ' =>
          obtain ⟨owner, means, rfl⟩ := older.assign?_eq_some.mp assigned
          apply (means.sets value).others
          rintro ⟨rfl, rfl⟩
          exact never value (.assign means)

theorem storedLast_append {past : List Operation} {op : Operation} :
    StoredLast (past ++ [op]) s name v ↔
      Stores (after past) op s name v ∨
        StoredLast past s name v ∧ ∀ u, ¬ Stores (after past) op s name u := by
  constructor
  · rintro ⟨before, first, later, whole, stores, last⟩
    rcases List.eq_nil_or_concat' later with rfl | ⟨others, final, rfl⟩
    · obtain ⟨rfl, same⟩ := List.append_inj' whole rfl
      cases same
      exact .inl stores
    · rw [← List.cons_append, ← List.append_assoc] at whole
      obtain ⟨rfl, same⟩ := List.append_inj' whole rfl
      cases same
      refine .inr ⟨⟨before, first, others, rfl, stores, ?_⟩, last others op [] rfl⟩
      rintro between next rest rfl
      exact last between next (rest ++ [op]) (by simp)
  · rintro (stores | ⟨⟨before, first, later, rfl, stores, last⟩, never⟩)
    · exact ⟨past, op, [], rfl, stores, by simp⟩
    · refine ⟨before, first, later ++ [op], by simp, stores, ?_⟩
      intro between next rest whole
      rcases List.eq_nil_or_concat' rest with rfl | ⟨others, final, rfl⟩
      · obtain ⟨rfl, same⟩ := List.append_inj' whole rfl
        cases same
        exact never
      · rw [← List.cons_append, ← List.append_assoc] at whole
        obtain ⟨rfl, same⟩ := List.append_inj' whole rfl
        exact last between next others rfl

theorem History.cell_eq_some {past : List Operation} (h : History past) :
    (after past).cell s name = some v ↔ StoredLast past s name v := by
  induction h with
  | nil =>
      constructor
      · intro bound
        cases bound
      · rintro ⟨before, op, later, whole, -⟩
        simp at whole
  | @next past op before possible ih =>
      rw [after_append, storedLast_append, ← ih]
      by_cases stores : ∃ u, Stores (after past) op s name u
      · obtain ⟨u, stores⟩ := stores
        rw [cell_of_stores before.layered possible stores]
        constructor
        · rintro ⟨⟩
          exact .inl stores
        · rintro (again | ⟨-, never⟩)
          · rw [← cell_of_stores before.layered possible again,
              cell_of_stores before.layered possible stores]
          · exact absurd stores (never u)
      · have never : ∀ u, ¬ Stores (after past) op s name u := fun u here => stores ⟨u, here⟩
        rw [cell_of_not_stores before.layered possible never]
        exact ⟨fun bound => .inr ⟨bound, never⟩, fun h => (h.resolve_left (never v)).1⟩

/-! ## Reading after writing -/

theorem Layered.get?_eq_none (older : σ.Layered) :
    σ.get? s name = none ↔ ¬ ∃ owner, σ.Owner s name owner := by
  constructor
  · rintro none ⟨owner, means⟩
    obtain ⟨v, bound⟩ := means.2
    cases none.symm.trans (older.get?_eq_some.mpr ⟨owner, means, bound⟩)
  · intro never
    by_contra some
    obtain ⟨v, value⟩ := Option.ne_none_iff_exists'.mp some
    obtain ⟨owner, means, -⟩ := older.get?_eq_some.mp value
    exact never ⟨owner, means⟩

theorem isSome_assign? (σ : Store) (s : Nat) (name : String) (v : Value) :
    (σ.assign? s name v).isSome = (σ.get? s name).isSome := by
  unfold Store.assign? Store.get?
  rw [Option.isSome_map, Option.isSome_map]

theorem lookup_eq_get? (s : Nat) (t : Token) (m : Machine) :
    Eval.lookup s t m = match m.store.get? s t.lexeme with
      | some v => .ok v m
      | none => .error (.error ⟨.undefinedVariable, t⟩) m := by
  rw [Eval.lookup_eq, Store.get?]
  cases m.store.resolve? s t.lexeme <;> rfl

theorem assign_eq_assign? (s : Nat) (t : Token) (v : Value) (m : Machine) :
    Eval.assign s t v m = match m.store.assign? s t.lexeme v with
      | some σ => .ok () { m with store := σ }
      | none => .error (.error ⟨.undefinedVariable, t⟩) m := by
  rw [Eval.assign_eq, Store.assign?]
  cases m.store.resolve? s t.lexeme <;> rfl

/-- After any operations a name means the variable of the nearest scope that binds it, with the
value that was stored there last. An assignment sets this one variable, and a declaration the one
of its own scope; each is seen from every scope from which the name means it. -/
theorem names_mean_nearest {past : List Operation} (history : History past) :
    let σ := after past
    (∀ s name v, σ.get? s name = some v ↔
        ∃ owner, σ.Owner s name owner ∧ StoredLast past owner name v) ∧
      (∀ s name, σ.get? s name = none ↔ ¬ ∃ owner, σ.Owner s name owner) ∧
      (∀ s name first second, σ.Owner s name first → σ.Owner s name second → first = second) ∧
      (∀ s name v, (σ.assign? s name v).isSome = (σ.get? s name).isSome) ∧
      (∀ s name v σ', σ.assign? s name v = some σ' → ∃ owner, σ.Owner s name owner ∧
        σ.Sets owner name v σ' ∧ ∀ t other,
          (other = name ∧ σ.Owner t name owner → σ'.get? t other = some v) ∧
          (¬ (other = name ∧ σ.Owner t name owner) → σ'.get? t other = σ.get? t other)) ∧
      (∀ s name v, s < σ.size → σ.Sets s name v (σ.define s name v) ∧ ∀ t other,
        (other = name ∧ σ.Exposes t name s → (σ.define s name v).get? t other = some v) ∧
        (¬ (other = name ∧ σ.Exposes t name s) →
          (σ.define s name v).get? t other = σ.get? t other)) ∧
      ∀ m : Machine, m.store = σ → ∀ s t,
        (Eval.lookup s t m = match σ.get? s t.lexeme with
          | some v => .ok v m
          | none => .error (.error ⟨.undefinedVariable, t⟩) m) ∧
        ∀ v, Eval.assign s t v m = match σ.assign? s t.lexeme v with
          | some σ' => .ok () { m with store := σ' }
          | none => .error (.error ⟨.undefinedVariable, t⟩) m := by
  intro σ
  have older : σ.Layered := history.layered
  refine ⟨fun s name v => ?_, fun s name => older.get?_eq_none,
    fun s name first second => Owner.unique older, isSome_assign? σ,
    fun s name v σ' => older.assigned, fun s name v inside => ?_, ?_⟩
  · rw [older.get?_eq_some]
    exact exists_congr fun owner => and_congr_right fun _ => history.cell_eq_some
  · have sets := sets_define inside name v
    exact ⟨sets, sets.seen older⟩
  · rintro m same s t
    rw [← same]
    exact ⟨lookup_eq_get? s t m, fun v => assign_eq_assign? s t v m⟩

theorem names_mean_nearest_hidden :
    let past : List Operation := [.create none, .define 0 "x" .nil, .create (some 0),
      .define 1 "x" (.bool true), .create (some 1), .assign 2 "x" (.string "y")]
    History past ∧ (after past).get? 0 "x" = some .nil ∧
      ∃ owner, (after past).Owner 2 "x" owner ∧ StoredLast past owner "x" (.string "y") := by
  intro past
  have history : History past :=
    @History.next [_, _, _, _, _] _ (@History.next [_, _, _, _] _ (@History.next [_, _, _] _
      (@History.next [_, _] _ (@History.next [_] _ (@History.next [] _ .nil nofun)
        (by decide)) (by decide)) (by decide)) (by decide)) (by decide)
  exact ⟨history, rfl, ((names_mean_nearest history).1 2 "x" _).mp rfl⟩

end Store

end Lox
