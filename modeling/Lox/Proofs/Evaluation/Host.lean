import Lox.Clock
import Lox.Proofs.Evaluation.Alike

namespace Lox

section
variable (R : Token → Token → Prop) (sees : Nat → Nat → Prop)

inductive Returned.Alike : Returned → Returned → Prop
  | value {v v'} (value : v.Alike R sees v') : Alike (.value v) (.value v')
  | alien {typeName} : Alike (.alien typeName) (.alien typeName)

inductive Native.Answer.Alike : Answer → Answer → Prop
  | returns {r r'} (result : r.Alike R sees r') : Alike (.returns r) (.returns r')
  | raises {e e'} (error : e.Alike R e') : Alike (.raises e) (.raises e')
  | exhausts : Alike .exhausts .exhausts

structure Native.Effect.Alike (e e' : Effect) : Prop where
  answer : e.answer.Alike R sees e'.answer
  printed : e.printed = e'.printed

end

namespace Host

/-- Built-in functions that do the same with alike arguments. The tokens and the scopes are those
of functions and errors that they make on their own. -/
def Blind (h : Host) (tokens : Token → Prop) (scopes : Nat → Prop) : Prop :=
  ∀ R sees, Token.Faithful R → (∀ t, tokens t → R t t) → (∀ s, scopes s → sees s s) →
    ∀ f calls as as', List.Forall₂ (Value.Alike R sees) as as' →
      (h.act f calls as).Alike R sees (h.act f calls as')

/-- A function that a built-in function returns is one of its arguments, or one of its own. -/
def Gives (h : Host) (own : Function → Prop) : Prop :=
  ∀ f calls as g, (h.act f calls as).answer = .returns (.value (.function g)) →
    .function g ∈ as ∨ own g

variable {h : Host} {own : Function → Prop}

theorem Gives.mono {more : Function → Prop} (gives : h.Gives own) (le : ∀ g, own g → more g) :
    h.Gives more :=
  fun f calls as g answer => (gives f calls as g answer).imp_right (le g)

theorem Gives.alike {R : Token → Token → Prop} {sees : Nat → Nat → Prop} (gives : h.Gives own)
    (tokens : ∀ t, R t t) (scopes : ∀ g, own g → sees g.closure g.closure) (f : Native) (calls : Nat)
    {as : List Value} (arguments : ∀ v ∈ as, v.Alike R sees v) :
    (h.act f calls as).Alike R sees (h.act f calls as) := by
  refine ⟨?_, rfl⟩
  cases answer : (h.act f calls as).answer with
  | raises e => exact .raises (.mk (tokens e.token))
  | exhausts => exact .exhausts
  | returns result =>
      cases result with
      | alien typeName => exact .returns .alien
      | value v =>
          refine .returns (.value ?_)
          cases v with
          | nil => exact .nil
          | bool => exact .bool
          | number => exact .number
          | string => exact .string
          | native => exact .native
          | function g =>
              rcases gives f calls as g answer with argument | made
              · exact arguments _ argument
              · exact .function ⟨rfl, tokens _, List.forall₂_same.mpr fun t _ => tokens t,
                  Stmt.Alike.refls tokens _, scopes g made⟩

end Host

theorem Clock.host_blind (clock : Clock) (nesting : Nat) (tokens : Token → Prop)
    (scopes : Nat → Prop) : (clock.host nesting).Blind tokens scopes :=
  fun _ _ _ _ _ _ _ _ _ _ => ⟨.returns (.value .number), rfl⟩

theorem Clock.host_gives (clock : Clock) (nesting : Nat) (own : Function → Prop) :
    (clock.host nesting).Gives own := nofun

namespace Native

def twice : Native := ⟨1, "twice", 1⟩

def twiceToken : Token := ⟨.identifier, "twice", .nil, 0⟩

def twiceBody : Body := fun _ arguments =>
  match arguments with
  | [.string s] => { answer := .returns (.value (.string (s ++ s))) }
  | _ => { answer := .raises ⟨.raised "Only strings can be doubled.", twiceToken⟩ }

end Native

def Host.doubling (nesting : Nat) : Host :=
  { natives := [.twice], act := fun _ => Native.twiceBody, nesting }

theorem Host.doubling_blind (nesting : Nat) {tokens : Token → Prop} (own : tokens Native.twiceToken)
    (scopes : Nat → Prop) : (doubling nesting).Blind tokens scopes := by
  intro R sees faithful same _ f calls as as' arguments
  have raises : (⟨.raises ⟨.raised "Only strings can be doubled.", Native.twiceToken⟩, []⟩ :
      Native.Effect).Alike R sees ⟨.raises ⟨.raised "Only strings can be doubled.",
        Native.twiceToken⟩, []⟩ := ⟨.raises (.mk (same _ own)), rfl⟩
  cases arguments with
  | nil => exact raises
  | cons head tail =>
      cases tail with
      | cons => cases head <;> exact raises
      | nil =>
          cases head with
          | string => exact ⟨.returns (.value .string), rfl⟩
          | nil | bool | number | function | native => exact raises

theorem Host.doubling_gives (nesting : Nat) (own : Function → Prop) :
    (doubling nesting).Gives own := by
  intro f calls as g answer
  change (Native.twiceBody calls as).answer = _ at answer
  unfold Native.twiceBody at answer
  split at answer <;> cases answer

end Lox
