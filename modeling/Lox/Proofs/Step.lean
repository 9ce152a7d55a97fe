import Mathlib

namespace Lox

variable {ε σ α β : Type} {s m s' : σ}

def final : EStateM.Result ε σ α → σ
  | .ok _ s => s
  | .error _ s => s

theorem bind_eq {p : EStateM ε σ α} {f : α → EStateM ε σ β} {a : α} (h : p s = .ok a m) :
    (p >>= f) s = f a m := by
  simp only [bind, EStateM.bind, h]

theorem bind_stop {p : EStateM ε σ α} {f : α → EStateM ε σ β} {e : ε} (h : p s = .error e m) :
    (p >>= f) s = .error e m := by
  simp only [bind, EStateM.bind, h]

theorem map_eq {p : EStateM ε σ α} {f : α → β} {a : α} (h : p s = .ok a m) :
    (f <$> p) s = .ok (f a) m := by
  simp only [Functor.map, EStateM.map, h]

theorem bind_ok {p : EStateM ε σ α} {f : α → EStateM ε σ β} {b : β} :
    (p >>= f) s = .ok b s' ↔ ∃ a m, p s = .ok a m ∧ f a m = .ok b s' := by
  simp only [bind, EStateM.bind]
  cases p s with
  | ok a m => exact ⟨fun h => ⟨a, m, rfl, h⟩, by rintro ⟨_, _, ⟨rfl, rfl⟩, h⟩; exact h⟩
  | error e m => simp

theorem bind_error {p : EStateM ε σ α} {f : α → EStateM ε σ β} {e : ε} :
    (p >>= f) s = .error e s' ↔
      p s = .error e s' ∨ ∃ a m, p s = .ok a m ∧ f a m = .error e s' := by
  simp only [bind, EStateM.bind]
  cases p s with
  | ok a m =>
      constructor
      · exact fun h => .inr ⟨a, m, rfl, h⟩
      · rintro (h | ⟨_, _, ⟨rfl, rfl⟩, h⟩)
        · cases h
        · exact h
  | error e m => simp

theorem pure_ok {a b : α} : (pure a : EStateM ε σ α) s = .ok b s' ↔ b = a ∧ s' = s := by
  simp [pure, EStateM.pure, eq_comm]

theorem map_ok {p : EStateM ε σ α} {f : α → β} {b : β} :
    (f <$> p) s = .ok b s' ↔ ∃ a, p s = .ok a s' ∧ b = f a := by
  simp only [Functor.map, EStateM.map]
  cases p s with
  | ok a m => simp only [EStateM.Result.ok.injEq]; grind
  | error e m => simp

theorem discard_error {x : EStateM ε σ α} {e : ε} :
    (discard x : EStateM ε σ PUnit) s = .error e s' ↔ x s = .error e s' := by
  simp only [discard, Functor.discard, Functor.mapConst, Function.comp, EStateM.map]
  cases x s <;> simp

theorem discard_eq {x : EStateM ε σ α} {a : α} (h : x s = .ok a m) :
    (discard x : EStateM ε σ PUnit) s = .ok () m := by
  simp only [discard, Functor.discard, Functor.mapConst, Function.comp, EStateM.map, h]

end Lox
