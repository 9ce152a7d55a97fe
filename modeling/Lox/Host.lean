import Lox.RuntimeError
import Lox.Value

/-!
The host: what built-in functions do, and how deep a text may be nested.

A run depends on the outside through the host alone. What a call of a built-in function does is a
function of its arguments and of the number of such calls before it, so that a run is a function of
its text.
-/

namespace Lox

/-- What a built-in function hands back: a value, or something else of some type. -/
inductive Returned where
  | value (value : Value)
  | alien (typeName : String)

/-- How a call of a built-in function ends. -/
inductive Native.Answer where
  | returns (result : Returned)
  | raises (error : RuntimeError)
  | exhausts

structure Native.Effect where
  answer : Native.Answer
  printed : List String := []

/-- What a built-in function does when it is called, after some number of calls of built-in
functions. -/
abbrev Native.Body := (calls : Nat) → List Value → Native.Effect

structure Host where
  natives : List Native
  act : Native → Native.Body
  /-- How many constructs of a text may be open at once. -/
  nesting : Nat

end Lox
