import Lox.Proofs.Evaluation.Simulation

namespace Lox

variable {R : Token → Token → Prop} {σ σ' : Store}

variable (R) in
structure Store.Alike (σ σ' : Store) : Prop where
  size : σ.size = σ'.size
  scopes (i : Nat) : Option.Rel (fun s s' => s.enclosing = s'.enclosing ∧ s.Alike R (· = ·) s')
    (σ.scopes[i]?) (σ'.scopes[i]?)

namespace Store.Alike

theorem resolveWithin (h : σ.Alike R σ') (name : String) (length scope : Nat) :
    Option.Rel (fun x x' => x.1 = x'.1 ∧ x.2.Alike R (· = ·) x'.2)
      (σ.resolveWithin name length scope) (σ'.resolveWithin name length scope) := by
  induction length generalizing scope with
  | zero => exact .none
  | succ length ih =>
      rw [Store.resolveWithin, Store.resolveWithin]
      rcases rel_or (h.scopes scope) with ⟨absent, absent'⟩ | ⟨s, s', found, found', enclosing, alike⟩
      · rw [absent, absent']
        exact .none
      rw [found, found']
      dsimp only
      rw [← enclosing]
      rcases rel_or (alike.get? name) with ⟨absent, absent'⟩ | ⟨v, v', found, found', value⟩
      · rw [absent, absent']
        cases s.enclosing with
        | none => exact .none
        | some outer => exact ih outer
      · rw [found, found']
        exact .some ⟨rfl, value⟩

theorem define (h : σ.Alike R σ') (scope : Nat) (name : String) {v v' : Value}
    (value : v.Alike R (· = ·) v') : (σ.define scope name v).Alike R (σ'.define scope name v') := by
  refine ⟨by rw [size_define, size_define, h.size], fun i => ?_⟩
  rw [scopes_define, scopes_define]
  split
  · rcases rel_or (h.scopes i) with ⟨absent, absent'⟩ | ⟨s, s', found, found', enclosing, alike⟩
    · rw [absent, absent']
      exact .none
    · rw [found, found']
      exact .some ⟨enclosing, alike.put name value⟩
  · exact h.scopes i

theorem push (h : σ.Alike R σ') (enclosing : Option Nat) :
    (σ.push enclosing).Alike R (σ'.push enclosing) := by
  refine ⟨by rw [size_push, size_push, h.size], fun i => ?_⟩
  have size := h.size
  unfold Store.size at size
  simp only [Store.push, Array.getElem?_push, ← size]
  split
  · exact .some ⟨rfl, .nil⟩
  · exact h.scopes i

theorem refl (tokens : ∀ t, R t t) (σ : Store) : σ.Alike R σ := by
  refine ⟨rfl, fun i => ?_⟩
  cases σ.scopes[i]? with
  | none => exact .none
  | some s =>
      exact .some ⟨rfl, List.forall₂_same.mpr fun b _ => ⟨rfl, .refl tokens (fun _ => rfl) b.2⟩⟩

theorem unique (functional : Relator.RightUnique R) {a b : Store} (first : σ.Alike R a)
    (second : σ.Alike R b) : a = b := by
  have scopes : a.scopes = b.scopes := by
    apply Array.ext_getElem?
    intro i
    rcases rel_or (first.scopes i) with ⟨absent, absent'⟩ | ⟨s, s', here, here', enclosing, alike⟩
    · rcases rel_or (second.scopes i) with ⟨-, missing⟩ | ⟨t, t', found, -⟩
      · rw [absent', missing]
      · rw [absent] at found
        cases found
    · rcases rel_or (second.scopes i) with ⟨missing, -⟩ | ⟨t, t', found, found', enclosing', alike'⟩
      · rw [here] at missing
        cases missing
      · rw [here] at found
        cases found
        have bindings := alike.unique functional rightUnique_eq alike'
        have outside := enclosing.symm.trans enclosing'
        rw [here', found']
        cases s'
        cases t'
        simp_all
  cases a
  cases b
  exact congrArg Store.mk scopes

theorem eq (h : σ.Alike (· = ·) σ') : σ = σ' :=
  unique rightUnique_eq (refl (fun _ => rfl) σ) h

end Store.Alike

variable (R) in
def Worlds.fixed : Worlds R Unit where
  sees _ := (· = ·)
  same _ := (· = ·)
  stores _ := Store.Alike R
  sees_mono _ := id
  same_mono _ := id
  sees_of_same := id
  resolve name stores := by
    rintro rfl
    exact stores.resolveWithin name _ _
  define name _ _ stores := by
    rintro rfl value
    exact stores.define _ name value
  push stores := by
    rintro rfl
    exact ⟨(), le_rfl, stores.push _, stores.size⟩

namespace Worlds

theorem Contexts.fixed {cut : Stop → Prop} {c c' : Context} (host : c.toHost = c'.toHost)
    (limits : Limits cut c c') (whole : ¬ cut .exhausted) :
    (fixed (· = ·)).Contexts cut c c' where
  natives _ f calls as as' arguments := by
    obtain rfl : as = as' := List.forall₂_eq_eq_eq ▸ arguments.imp fun _ _ => Value.Alike.eq
    have gives : c.Gives fun _ => True := fun _ _ _ _ _ => .inr trivial
    rw [← host]
    exact gives.alike (fun _ => rfl) (fun _ _ => rfl) f calls (List.forall₂_same.mp arguments)
  limits := limits
  whole := whole

theorem Machines.eq {w : Unit} {m m' : Machine}
    (h : (fixed (· = ·)).Machines w m m') : m = m' := by
  obtain ⟨stores, declared, calls, depth, output⟩ := h
  have store := Store.Alike.eq stores
  cases m
  cases m'
  simp_all

theorem Machines.refl (m : Machine) : (fixed (· = ·)).Machines () m m :=
  ⟨.refl (fun _ => rfl) m.store, rfl, rfl, rfl, rfl⟩

/-- A run that follows another from the same machine is the same run, unless the first one was cut
short. -/
theorem Simulates.eq_or_cut {α : Type} {cut : Stop → Prop} {rel : Unit → α → α → Prop}
    {x y : Eval α} (h : (fixed (· = ·)).Simulates cut () rel x y)
    (same : ∀ a b, rel () a b → a = b) (m : Machine) :
    y m = x m ∨ ∃ stop m', x m = .error stop m' ∧ cut stop ∧
      m'.output.toList <+: (y.after m).output.toList := by
  have follows := h () m m le_rfl (.refl m)
  cases run : x m with
  | ok a m₁ =>
      rw [run] at follows
      obtain ⟨b, m₁', w, run', -, related, machines⟩ := follows
      rw [run', same a b related, machines.eq]
      exact .inl rfl
  | error stop m₁ =>
      rw [run] at follows
      rcases follows with ⟨stop', m₁', w, run', -, alike, machines⟩ | ⟨short, output⟩
      · rw [run', Stop.Alike.eq alike, machines.eq]
        exact .inl rfl
      · exact .inr ⟨stop, m₁, rfl, short, output⟩

end Worlds

end Lox
