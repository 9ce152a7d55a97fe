import Lox.Host

namespace Lox

/-- A clock gives a time in seconds for each call of a built-in function; its argument is the number
of earlier ones. -/
abbrev Clock := Nat → Float

namespace Clock

/-- The time between two readings, about a microsecond. It is a power of two, so that adding it to
the time of this century is exact. -/
def tick : Float := 1 / 1048576

def ticking (start : Float) : Clock := fun calls => start + calls.toFloat * tick

def native : Native := ⟨0, "clock", 0⟩

def body (clock : Clock) : Native.Body := fun calls _ =>
  { answer := .returns (.value (.number (clock calls))) }

def host (clock : Clock) (nesting : Nat) : Host :=
  { natives := [native], act := fun _ => clock.body, nesting }

end Clock

end Lox
