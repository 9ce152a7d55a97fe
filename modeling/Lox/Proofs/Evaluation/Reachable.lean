import Lox.Proofs.Evaluation.Reached
import Lox.Proofs.Evaluation.WellFormed

namespace Lox

inductive Store.Reachable (σ : Store) (s : Nat) : Nat → Prop
  | here : Reachable σ s s
  | enclosing {t e scope} (inside : Reachable σ s t) (found : σ.scopes[t]? = some scope)
      (outer : scope.enclosing = some e) : Reachable σ s e
  | closure {t scope name f} (inside : Reachable σ s t) (found : σ.scopes[t]? = some scope)
      (member : (name, .function f) ∈ scope.bindings) : Reachable σ s f.closure

/-- A scope of the store that one cannot get to from another one. -/
def Store.Hidden (σ : Store) (s t : Nat) : Prop := t < σ.size ∧ ¬ σ.Reachable s t

structure Store.Differs (hidden : Nat → Prop) (σ σ' : Store) : Prop where
  size : σ'.size = σ.size
  same {t : Nat} : ¬ hidden t → σ'.scopes[t]? = σ.scopes[t]?

structure Store.Conceals (σ : Store) (hidden : Nat → Prop) : Prop where
  enclosing {t e : Nat} {scope : Scope} : ¬ hidden t → σ.scopes[t]? = some scope →
    scope.enclosing = some e → ¬ hidden e
  values {t : Nat} {scope : Scope} {name : String} {v : Value} : ¬ hidden t →
    σ.scopes[t]? = some scope → (name, v) ∈ scope.bindings → v.Made fun f => ¬ hidden f.closure

variable {hidden : Nat → Prop} {σ σ' : Store}

namespace Value

variable {v v' : Value}

theorem Made.alike (h : v.Made fun f => ¬ hidden f.closure) :
    v.Alike (· = ·) (fun s s' => s = s' ∧ ¬ hidden s) v := by
  cases h with
  | nil => exact .nil
  | bool => exact .bool
  | number => exact .number
  | string => exact .string
  | function visible =>
      exact .function ⟨rfl, rfl, List.forall₂_same.mpr fun _ _ => rfl,
        Stmt.Alike.refls (fun _ => rfl) _, rfl, visible⟩
  | native => exact .native

theorem Alike.made (h : v.Alike (· = ·) (fun s s' => s = s' ∧ ¬ hidden s) v') :
    v.Made fun f => ¬ hidden f.closure := by
  cases h with
  | nil => exact .nil
  | bool => exact .bool
  | number => exact .number
  | string => exact .string
  | function alike => exact .function alike.closure.2
  | native => exact .native

end Value

theorem Store.Reachable.resolveWithin {r s owner length : Nat} {name : String} {v : Value}
    (inside : σ.Reachable r s) (found : σ.resolveWithin name length s = some (owner, v)) :
    σ.Reachable r owner := by
  induction length generalizing s with
  | zero => cases found
  | succ length ih =>
      obtain ⟨scope, here, ⟨rfl, -⟩ | ⟨e, outer, rest⟩⟩ := resolveWithin_some found
      · exact inside
      · exact ih (.enclosing inside here outer) rest

namespace Store.Conceals

theorem reachable (h : σ.Conceals hidden) {s t : Nat} (visible : ¬ hidden s)
    (reachable : σ.Reachable s t) : ¬ hidden t := by
  induction reachable with
  | here => exact visible
  | enclosing _ found outer ih => exact h.enclosing ih found outer
  | closure _ found member ih =>
      cases h.values ih found member with
      | function place => exact place

theorem of_hidden (σ : Store) (s : Nat) : σ.Conceals (σ.Hidden s) := by
  have inside : ∀ {t : Nat} {scope : Scope}, ¬ σ.Hidden s t → σ.scopes[t]? = some scope →
      σ.Reachable s t := fun visible found =>
    Classical.byContradiction fun outside => visible ⟨lt_size found, outside⟩
  refine ⟨fun visible found outer apart => ?_, fun {t scope name v} visible found member => ?_⟩
  · exact apart.2 (.enclosing (inside visible found) found outer)
  · apply Value.Made.of_function
    rintro f rfl apart
    exact apart.2 (.closure (inside visible found) found member)

theorem and {hidden' : Nat → Prop} (h : σ.Conceals hidden) (h' : σ.Conceals hidden') :
    σ.Conceals fun t => hidden t ∧ hidden' t := by
  refine ⟨fun visible found outer => ?_, fun visible found member => ?_⟩
  · rcases Classical.not_and_iff_not_or_not.mp visible with visible | visible
    · exact fun apart => h.enclosing visible found outer apart.1
    · exact fun apart => h'.enclosing visible found outer apart.2
  · rcases Classical.not_and_iff_not_or_not.mp visible with visible | visible
    · exact (h.values visible found member).mono fun _ visible apart => visible apart.1
    · exact (h'.values visible found member).mono fun _ visible apart => visible apart.2

theorem resolveWithin (h : σ.Conceals hidden) {name : String} {length s owner : Nat} {v : Value}
    (visible : ¬ hidden s) (found : σ.resolveWithin name length s = some (owner, v)) :
    ¬ hidden owner ∧ v.Made fun f => ¬ hidden f.closure := by
  have place : ¬ hidden owner := h.reachable visible (Reachable.here.resolveWithin found)
  obtain ⟨scope, there, bound⟩ := bound_of_resolveWithin found
  exact ⟨place, h.values place there (Scope.mem_of_get? bound)⟩

theorem define (h : σ.Conceals hidden) (s : Nat) (name : String) {v : Value}
    (made : v.Made fun f => ¬ hidden f.closure) : (σ.define s name v).Conceals hidden := by
  refine ⟨fun visible found outer => ?_, fun visible found member => ?_⟩
  · obtain ⟨old, there, same, -⟩ := of_define found
    exact h.enclosing visible there (same.trans outer)
  · obtain ⟨old, there, -, values⟩ := of_define found
    rcases values _ _ member with rfl | before
    · exact made
    · exact h.values visible there before

theorem push (h : σ.Conceals hidden) {s : Nat} (around : ¬ hidden s) :
    (σ.push (some s)).Conceals hidden := by
  refine ⟨fun visible found outer => ?_, fun visible found member => ?_⟩
  · rw [scopes_push] at found
    split at found
    · cases found
      cases outer
      exact around
    · exact h.enclosing visible found outer
  · rw [scopes_push] at found
    split at found
    · cases found
      cases member
    · exact h.values visible found member

end Store.Conceals

namespace Store.Differs

theorem resolveWithin (h : σ.Differs hidden σ') (conceals : σ.Conceals hidden) (name : String)
    {length s : Nat} (visible : ¬ hidden s) :
    σ'.resolveWithin name length s = σ.resolveWithin name length s := by
  induction length generalizing s with
  | zero => rfl
  | succ length ih =>
      rw [Store.resolveWithin, Store.resolveWithin, h.same visible]
      cases here : σ.scopes[s]? with
      | none => rfl
      | some scope =>
          dsimp only
          cases scope.get? name with
          | some value => rfl
          | none =>
              cases outer : scope.enclosing with
              | none => rfl
              | some e => exact ih (conceals.enclosing visible here outer)

theorem define (h : σ.Differs hidden σ') (s : Nat) (name : String) (v : Value) :
    (σ.define s name v).Differs hidden (σ'.define s name v) :=
  ⟨by rw [size_define, size_define, h.size], fun visible => by
    rw [scopes_define, scopes_define, h.same visible]⟩

theorem push (h : σ.Differs hidden σ') (enclosing : Option Nat) :
    (σ.push enclosing).Differs hidden (σ'.push enclosing) :=
  ⟨by rw [size_push, size_push, h.size], fun visible => by
    rw [scopes_push, scopes_push, h.size, h.same visible]⟩

end Store.Differs

/-- What holds of a store since an earlier one: hidden scopes are as they were, and no others lead to
them. -/
structure Store.Spares (hidden : Nat → Prop) (before σ : Store) : Prop where
  conceals : σ.Conceals hidden
  size : before.size ≤ σ.size
  kept {t : Nat} : hidden t → σ.scopes[t]? = before.scopes[t]?

namespace Store.Spares

variable {before : Store} {s : Nat}

theorem refl (conceals : σ.Conceals hidden) : σ.Spares hidden σ :=
  ⟨conceals, Nat.le_refl _, fun _ => rfl⟩

theorem define (h : before.Spares hidden σ) (visible : ¬ hidden s) (name : String) {v : Value}
    (made : v.Made fun f => ¬ hidden f.closure) : before.Spares hidden (σ.define s name v) := by
  refine ⟨h.conceals.define s name made, ?_, fun {t} apart => ?_⟩
  · rw [size_define]
    exact h.size
  · have other : s ≠ t := fun same => visible (same ▸ apart)
    rw [scopes_define, if_neg other, h.kept apart]

theorem push (h : before.Spares hidden σ) (old : ∀ t, hidden t → t < before.size)
    (visible : ¬ hidden s) : before.Spares hidden (σ.push (some s)) := by
  have size := h.size
  refine ⟨h.conceals.push visible, ?_, fun {t} apart => ?_⟩
  · rw [size_push]
    omega
  · have less := old t apart
    rw [scopes_push_of_lt (by omega), h.kept apart]

theorem visible_size (h : before.Spares hidden σ) (old : ∀ t, hidden t → t < before.size) :
    ¬ hidden σ.size := fun apart => Nat.not_lt_of_le h.size (old _ apart)

end Store.Spares

section
variable (hidden) (before : Store) (old : ∀ t, hidden t → t < before.size)

def Invariant.spares : Invariant where
  node _ := True
  store := before.Spares hidden
  leads _ _ := True
  function f := ¬ hidden f.closure
  sees s := ¬ hidden s
  owns s := ¬ hidden s
  refl _ := trivial
  trans _ _ := trivial
  sees_of_owns := id
  declared visible _ := visible
  body visible := ⟨visible, fun _ _ => trivial⟩
  resolve store visible found := (store.conceals.resolveWithin visible found).2
  assign store visible found made :=
    ⟨store.define (store.conceals.resolveWithin visible found).1 _ made, trivial⟩
  define name _ store visible made := ⟨store.define visible name made, trivial⟩
  push store visible := ⟨store.push old visible, trivial, store.visible_size old⟩

def Worlds.spares : Worlds (· = ·) Unit where
  sees _ s s' := s = s' ∧ ¬ hidden s
  same _ s s' := s = s' ∧ ¬ hidden s
  stores _ σ σ' := before.Spares hidden σ ∧ σ.Differs hidden σ'
  sees_mono _ := id
  same_mono _ := id
  sees_of_same := id
  resolve {_ σ σ' s _} name := by
    rintro ⟨spares, differs⟩ ⟨rfl, visible⟩
    have same : σ'.resolve? s name = σ.resolve? s name :=
      differs.resolveWithin spares.conceals name visible
    rw [same]
    cases found : σ.resolve? s name with
    | none => exact .none
    | some x =>
        obtain ⟨place, made⟩ := spares.conceals.resolveWithin visible found
        exact .some ⟨⟨rfl, place⟩, made.alike⟩
  define {_ σ σ' s _} name v v' := by
    rintro ⟨spares, differs⟩ ⟨rfl, visible⟩ value
    have same : v = v' := (value.mono fun _ _ => And.left).eq
    subst same
    exact ⟨spares.define visible name value.made, differs.define s name v⟩
  push {_ σ σ' s _} := by
    rintro ⟨spares, differs⟩ ⟨rfl, visible⟩
    exact ⟨(), le_rfl, ⟨spares.push old visible, differs.push _⟩, differs.size.symm,
      spares.visible_size old⟩

variable {hidden} {before} {old}

theorem Worlds.Contexts.spares {c : Context} (gives : c.Gives fun g => ¬ hidden g.closure) :
    (Worlds.spares hidden before old).Contexts (fun _ => False) c c :=
  .of_gives gives (fun same => (same.mono fun _ _ => And.left).eq) (fun _ _ own => ⟨rfl, own⟩) id

end

end Lox
