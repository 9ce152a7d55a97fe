import Lox.Value

/-!
The store: all scopes that were ever opened.

Scopes are numbered in the order of their opening and each but the outermost ones links to the
scope that encloses it. A name means the variable of the nearest scope that binds it, which
`Store.resolve?` finds.
-/

namespace Lox

structure Scope where
  enclosing : Option Nat := none
  bindings : List (String × Value) := []
  deriving Inhabited

namespace Scope

def get? (s : Scope) (name : String) : Option Value := s.bindings.lookup name

def bind (name : String) (value : Value) : List (String × Value) → List (String × Value)
  | [] => [(name, value)]
  | (key, old) :: rest =>
      if key == name then (key, value) :: rest else (key, old) :: bind name value rest

def put (s : Scope) (name : String) (value : Value) : Scope :=
  { s with bindings := bind name value s.bindings }

theorem lookup_bind (name other : String) (value : Value) (bindings : List (String × Value)) :
    (bind name value bindings).lookup other =
      if other = name then some value else bindings.lookup other := by
  induction bindings with
  | nil =>
      by_cases ho : other = name
      · simp [bind, ho]
      · have hb : (other == name) = false := by simpa using ho
        simp [bind, List.lookup_cons, hb, ho]
  | cons head rest ih =>
      obtain ⟨key, old⟩ := head
      by_cases hk : key = name <;> by_cases ho : other = key
      · subst hk ho
        simp [bind]
      · subst hk
        have hb : (other == key) = false := by simpa using ho
        simp [bind, List.lookup_cons, hb, ho]
      · subst ho
        simp [bind, hk]
      · have hb : (other == key) = false := by simpa using ho
        have hn : (key == name) = false := by simpa using hk
        simp [bind, List.lookup_cons, hn, hb, ih]

theorem get?_put (s : Scope) (name other : String) (value : Value) :
    (s.put name value).get? other = if other = name then some value else s.get? other :=
  lookup_bind name other value s.bindings

@[simp] theorem enclosing_put (s : Scope) (name : String) (value : Value) :
    (s.put name value).enclosing = s.enclosing := rfl

def sorted (s : Scope) : List (String × Value) :=
  s.bindings.mergeSort fun a b => a.1 ≤ b.1

end Scope

structure Store where
  scopes : Array Scope := #[]
  deriving Inhabited

namespace Store

def size (σ : Store) : Nat := σ.scopes.size

def push (σ : Store) (enclosing : Option Nat) : Store :=
  { scopes := σ.scopes.push { enclosing } }

def define (σ : Store) (scope : Nat) (name : String) (value : Value) : Store :=
  { scopes := σ.scopes.modify scope (·.put name value) }

@[simp] theorem size_push (σ : Store) (enclosing : Option Nat) :
    (σ.push enclosing).size = σ.size + 1 := by
  simp [push, size]

@[simp] theorem size_define (σ : Store) (scope : Nat) (name : String) (value : Value) :
    (σ.define scope name value).size = σ.size := by
  simp [define, size]

theorem scopes_push_of_lt {σ : Store} {scope : Nat} (h : scope < σ.size)
    (enclosing : Option Nat) : (σ.push enclosing).scopes[scope]? = σ.scopes[scope]? := by
  have hne : scope ≠ σ.scopes.size := Nat.ne_of_lt h
  simp [push, Array.getElem?_push, hne]

theorem scopes_define (σ : Store) (scope other : Nat) (name : String) (value : Value) :
    (σ.define scope name value).scopes[other]? =
      if scope = other then σ.scopes[other]?.map (·.put name value) else σ.scopes[other]? := by
  simp [define, Array.getElem?_modify]

/-- The nearest scope that binds a name, with its value there, among the first `length` scopes of
the chain that starts with a scope. -/
def resolveWithin (σ : Store) (name : String) : (length scope : Nat) → Option (Nat × Value)
  | 0, _ => none
  | length + 1, scope =>
      match σ.scopes[scope]? with
      | none => none
      | some s =>
          match s.get? name, s.enclosing with
          | some value, _ => some (scope, value)
          | none, some enclosing => resolveWithin σ name length enclosing
          | none, none => none

/-- The scope whose variable a name means, and its value. Links lead to older scopes, so a chain
from a scope is no longer than its number and one. -/
def resolve? (σ : Store) (scope : Nat) (name : String) : Option (Nat × Value) :=
  resolveWithin σ name (scope + 1) scope

def get? (σ : Store) (scope : Nat) (name : String) : Option Value :=
  (σ.resolve? scope name).map Prod.snd

def assign? (σ : Store) (scope : Nat) (name : String) (value : Value) : Option Store :=
  (σ.resolve? scope name).map fun (owner, _) => σ.define owner name value

end Store

end Lox
