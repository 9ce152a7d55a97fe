import Lox.Proofs.Evaluation.WellFormed

/-!
Runs that differ in the numbers of their scopes, and in scopes that stay empty.

`Links` pairs the scopes of two stores; scopes that are paired with none are empty and stay empty,
so a name means outside of them what it means inside.
-/

namespace Lox

variable {R : Token → Token → Prop}

/-- Which scopes of two stores are the same, and which scopes of either store are empty for good,
with the scopes around them. -/
structure Links where
  same : Nat → Nat → Prop
  left : Nat → Nat → Prop
  right : Nat → Nat → Prop

namespace Links

instance : Preorder Links where
  le v w := (∀ s s', v.same s s' → w.same s s') ∧ (∀ t e, v.left t e → w.left t e) ∧
    ∀ t e, v.right t e → w.right t e
  le_refl _ := ⟨fun _ _ => id, fun _ _ => id, fun _ _ => id⟩
  le_trans _ _ _ h k := ⟨fun s s' x => k.1 s s' (h.1 s s' x),
    fun t e x => k.2.1 t e (h.2.1 t e x), fun t e x => k.2.2 t e (h.2.2 t e x)⟩

/-- Scopes that are the same once one leaves the empty scopes around them. -/
inductive Sees (w : Links) : Nat → Nat → Prop
  | same {s s'} (pair : w.same s s') : Sees w s s'
  | left {t e s'} (empty : w.left t e) (outside : Sees w e s') : Sees w t s'
  | right {s t e} (empty : w.right t e) (outside : Sees w s e) : Sees w s t

theorem Sees.mono {v w : Links} (le : v ≤ w) {s s' : Nat} (h : v.Sees s s') : w.Sees s s' := by
  induction h with
  | same pair => exact .same (le.1 _ _ pair)
  | left empty _ ih => exact .left (le.2.1 _ _ empty) ih
  | right empty _ ih => exact .right (le.2.2 _ _ empty) ih

def identity (n : Nat) : Links where
  same s s' := s = s' ∧ s < n
  left _ _ := False
  right _ _ := False

def pair (w : Links) (s s' : Nat) : Links :=
  { w with same := fun t t' => w.same t t' ∨ t = s ∧ t' = s' }

def skipLeft (w : Links) (s e : Nat) : Links :=
  { w with left := fun t d => w.left t d ∨ t = s ∧ d = e }

def skipRight (w : Links) (s e : Nat) : Links :=
  { w with right := fun t d => w.right t d ∨ t = s ∧ d = e }

theorem le_pair (w : Links) (s s' : Nat) : w ≤ w.pair s s' :=
  ⟨fun _ _ => .inl, fun _ _ => id, fun _ _ => id⟩

theorem le_skipLeft (w : Links) (s e : Nat) : w ≤ w.skipLeft s e :=
  ⟨fun _ _ => id, fun _ _ => .inl, fun _ _ => id⟩

theorem le_skipRight (w : Links) (s e : Nat) : w ≤ w.skipRight s e :=
  ⟨fun _ _ => id, fun _ _ => id, fun _ _ => .inl⟩

structure Keeps (σ : Store) (empty : Nat → Nat → Prop) : Prop where
  older : σ.Layered
  empty {t e : Nat} : empty t e → σ.scopes[t]? = some { enclosing := some e }

namespace Keeps

variable {σ : Store} {empty : Nat → Nat → Prop}

theorem define (h : Keeps σ empty) {s : Nat} (apart : ∀ e, ¬ empty s e) (name : String)
    (v : Value) : Keeps (σ.define s name v) empty := by
  refine ⟨h.older.define s name v, fun {t e} skipped => ?_⟩
  have other : s ≠ t := fun same => apart e (same ▸ skipped)
  rw [Store.scopes_define, if_neg other, h.empty skipped]

theorem push (h : Keeps σ empty) {s : Nat} (inside : s < σ.size) :
    Keeps (σ.push (some s)) empty := by
  refine ⟨h.older.push (by simpa using inside), fun {t e} skipped => ?_⟩
  have old := Store.lt_size (h.empty skipped)
  rw [Store.scopes_push, if_neg (Nat.ne_of_lt old), h.empty skipped]

theorem pushEmpty (h : Keeps σ empty) {s : Nat} (inside : s < σ.size) :
    Keeps (σ.push (some s)) fun t e => empty t e ∨ t = σ.size ∧ e = s := by
  refine ⟨h.older.push (by simpa using inside), fun {t e} skipped => ?_⟩
  rcases skipped with skipped | ⟨rfl, rfl⟩
  · exact (h.push inside).empty skipped
  · rw [Store.scopes_push, if_pos rfl]

end Keeps

variable (R) in
structure Stores (w : Links) (σ σ' : Store) : Prop where
  left : Keeps σ w.left
  right : Keeps σ' w.right
  scopes {s s' : Nat} : w.same s s' → ∃ scope scope', σ.scopes[s]? = some scope ∧
    σ'.scopes[s']? = some scope' ∧ scope.Alike R w.Sees scope' ∧
    Option.Rel w.Sees scope.enclosing scope'.enclosing
  functional {s s' t' : Nat} : w.same s s' → w.same s t' → s' = t'
  injective {s t s' : Nat} : w.same s s' → w.same t s' → s = t
  apart_left {s s' e : Nat} : w.same s s' → ¬ w.left s e
  apart_right {s s' e : Nat} : w.same s s' → ¬ w.right s' e

variable {w : Links} {σ σ' : Store}

theorem Stores.lt_size (h : w.Stores R σ σ') {s s' : Nat} (sees : w.Sees s s') :
    s < σ.size ∧ s' < σ'.size := by
  induction sees with
  | same pair =>
      obtain ⟨scope, scope', found, found', -⟩ := h.scopes pair
      exact ⟨Store.lt_size found, Store.lt_size found'⟩
  | left empty _ ih => exact ⟨Store.lt_size (h.left.empty empty), ih.2⟩
  | right empty _ ih => exact ⟨ih.1, Store.lt_size (h.right.empty empty)⟩

theorem Stores.resolve (h : w.Stores R σ σ') (name : String) {s s' : Nat} (sees : w.Sees s s') :
    Option.Rel (fun x x' => w.same x.1 x'.1 ∧ x.2.Alike R w.Sees x'.2)
      (σ.resolve? s name) (σ'.resolve? s' name) := by
  -- The induction is on both chains at once, because a step may leave an empty scope of one store
  -- while the other store stays where it is.
  induction length : s + s' using Nat.strongRecOn generalizing s s' with
  | ind length ih =>
      cases sees with
      | same pair =>
          obtain ⟨scope, scope', found, found', alike, outer⟩ := h.scopes pair
          rw [h.left.older.resolve? found, h.right.older.resolve? found']
          rcases rel_or (alike.get? name) with ⟨absent, absent'⟩ | ⟨v, v', bound, bound', value⟩
          · rw [absent, absent']
            rcases rel_or outer with ⟨absent, absent'⟩ | ⟨e, e', outside, outside', sees⟩
            · rw [absent, absent']
              exact .none
            · rw [outside, outside']
              have less := h.left.older found outside
              have less' := h.right.older found' outside'
              exact ih (e + e') (by omega) sees rfl
          · rw [bound, bound']
            exact .some ⟨pair, value⟩
      | @left _ e _ empty outside =>
          have found := h.left.empty empty
          have less := h.left.older found rfl
          rw [h.left.older.resolve? found]
          exact ih (e + s') (by omega) outside rfl
      | @right _ _ e empty outside =>
          have found := h.right.empty empty
          have less := h.right.older found rfl
          rw [h.right.older.resolve? found]
          exact ih (s + e) (by omega) outside rfl

theorem Stores.define (h : w.Stores R σ σ') {s s' : Nat} (same : w.same s s') (name : String)
    {v v' : Value} (value : v.Alike R w.Sees v') :
    w.Stores R (σ.define s name v) (σ'.define s' name v') where
  left := h.left.define (fun _ => h.apart_left same) name v
  right := h.right.define (fun _ => h.apart_right same) name v'
  scopes {t t'} pair := by
    obtain ⟨scope, scope', found, found', alike, outer⟩ := h.scopes pair
    simp only [Store.scopes_define, found, found', Option.map_some]
    by_cases here : s = t
    · subst here
      obtain rfl := h.functional same pair
      rw [if_pos rfl, if_pos rfl]
      exact ⟨_, _, rfl, rfl, alike.put name value, outer⟩
    · have there : ¬ s' = t' := fun there => here (h.injective same (there ▸ pair))
      rw [if_neg here, if_neg there]
      exact ⟨_, _, rfl, rfl, alike, outer⟩
  functional := h.functional
  injective := h.injective
  apart_left := h.apart_left
  apart_right := h.apart_right

theorem Stores.later (h : w.Stores R σ σ') {v : Links} (le : w ≤ v) {τ τ' : Store}
    (kept : ∀ s, s < σ.size → τ.scopes[s]? = σ.scopes[s]?)
    (kept' : ∀ s, s < σ'.size → τ'.scopes[s]? = σ'.scopes[s]?) {s s' : Nat} (same : w.same s s') :
    ∃ scope scope', τ.scopes[s]? = some scope ∧ τ'.scopes[s']? = some scope' ∧
      scope.Alike R v.Sees scope' ∧ Option.Rel v.Sees scope.enclosing scope'.enclosing := by
  obtain ⟨scope, scope', found, found', alike, outer⟩ := h.scopes same
  refine ⟨scope, scope', (kept _ (Store.lt_size found)).trans found,
    (kept' _ (Store.lt_size found')).trans found', alike.mono fun _ _ => Sees.mono le, ?_⟩
  rcases rel_or outer with ⟨absent, absent'⟩ | ⟨e, e', outside, outside', sees⟩
  · rw [absent, absent']
    exact .none
  · rw [outside, outside']
    exact .some (sees.mono le)

theorem Stores.push (h : w.Stores R σ σ') {s s' : Nat} (sees : w.Sees s s') :
    (w.pair σ.size σ'.size).Stores R (σ.push (some s)) (σ'.push (some s')) where
  left := h.left.push (h.lt_size sees).1
  right := h.right.push (h.lt_size sees).2
  scopes {t t'} pair := by
    rcases pair with pair | ⟨rfl, rfl⟩
    · exact h.later (w.le_pair _ _) (fun _ old => Store.scopes_push_of_lt old _)
        (fun _ old => Store.scopes_push_of_lt old _) pair
    · exact ⟨{ enclosing := some s }, { enclosing := some s' }, by rw [Store.scopes_push, if_pos rfl],
        by rw [Store.scopes_push, if_pos rfl], .nil, .some (sees.mono (w.le_pair _ _))⟩
  functional {t t' u'} pair pair' := by
    rcases pair with pair | ⟨rfl, rfl⟩ <;> rcases pair' with pair' | ⟨same, rfl⟩
    · exact h.functional pair pair'
    · exact absurd (h.lt_size (.same pair)).1 (by omega)
    · exact absurd (h.lt_size (.same pair')).1 (by omega)
    · rfl
  injective {t u t'} pair pair' := by
    rcases pair with pair | ⟨rfl, rfl⟩ <;> rcases pair' with pair' | ⟨rfl, same⟩
    · exact h.injective pair pair'
    · exact absurd (h.lt_size (.same pair)).2 (by omega)
    · exact absurd (h.lt_size (.same pair')).2 (by omega)
    · rfl
  apart_left {t t' e} pair skipped := by
    rcases pair with pair | ⟨rfl, rfl⟩
    · exact h.apart_left pair skipped
    · exact absurd (Store.lt_size (h.left.empty skipped)) (Nat.lt_irrefl _)
  apart_right {t t' e} pair skipped := by
    rcases pair with pair | ⟨rfl, rfl⟩
    · exact h.apart_right pair skipped
    · exact absurd (Store.lt_size (h.right.empty skipped)) (Nat.lt_irrefl _)

theorem Stores.pushLeft (h : w.Stores R σ σ') {s s' : Nat} (sees : w.Sees s s') :
    (w.skipLeft σ.size s).Stores R (σ.push (some s)) σ' where
  left := h.left.pushEmpty (h.lt_size sees).1
  right := h.right
  scopes pair := h.later (w.le_skipLeft _ _) (fun _ old => Store.scopes_push_of_lt old _)
    (fun _ _ => rfl) pair
  functional := h.functional
  injective := h.injective
  apart_left {t t' e} pair skipped := by
    rcases skipped with skipped | ⟨rfl, rfl⟩
    · exact h.apart_left pair skipped
    · exact absurd (h.lt_size (.same pair)).1 (Nat.lt_irrefl _)
  apart_right := h.apart_right

theorem Stores.pushRight (h : w.Stores R σ σ') {s s' : Nat} (sees : w.Sees s s') :
    (w.skipRight σ'.size s').Stores R σ (σ'.push (some s')) where
  left := h.left
  right := h.right.pushEmpty (h.lt_size sees).2
  scopes pair := h.later (w.le_skipRight _ _) (fun _ _ => rfl)
    (fun _ old => Store.scopes_push_of_lt old _) pair
  functional := h.functional
  injective := h.injective
  apart_left := h.apart_left
  apart_right {t t' e} pair skipped := by
    rcases skipped with skipped | ⟨rfl, rfl⟩
    · exact h.apart_right pair skipped
    · exact absurd (h.lt_size (.same pair)).2 (Nat.lt_irrefl _)

theorem Stores.identity (h : σ.WellFormed) : (identity σ.size).Stores (· = ·) σ σ where
  left := ⟨h.older, False.elim⟩
  right := ⟨h.older, False.elim⟩
  scopes {s s'} pair := by
    obtain ⟨rfl, inside⟩ := pair
    obtain ⟨scope, found⟩ := Store.getElem?_of_lt inside
    refine ⟨scope, scope, found, found, List.forall₂_same.mpr fun b member => ⟨rfl, ?_⟩, ?_⟩
    · exact (h.values found member).mono fun _ _ pair => .same pair
    · cases outer : scope.enclosing with
      | none => exact .none
      | some e => exact .some (.same ⟨rfl, Nat.lt_trans (h.older found outer) inside⟩)
  functional pair pair' := pair.1 ▸ pair'.1
  injective pair pair' := pair.1 ▸ pair'.1 ▸ rfl
  apart_left _ := id
  apart_right _ := id

end Links

variable (R) in
def Worlds.renaming (own : Nat → Prop) : Worlds R Links where
  sees := Links.Sees
  same := Links.same
  stores w σ σ' := w.Stores R σ σ' ∧ ∀ s, own s → w.same s s
  sees_mono le := Links.Sees.mono le
  same_mono le := le.1 _ _
  sees_of_same := .same
  resolve name stores := stores.1.resolve name
  define name _ _ stores same value := ⟨stores.1.define same name value, stores.2⟩
  push {w _ _ _ _} stores sees :=
    have le := w.le_pair _ _
    ⟨_, le, ⟨stores.1.push sees, fun s own => le.1 _ _ (stores.2 s own)⟩, .inr ⟨rfl, rfl⟩⟩

end Lox
