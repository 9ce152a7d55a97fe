import Lox.Text.Blank
import Lox.Text.Digit

namespace Lox

structure Settings where
  callDepth : Option String := none
  trace : Option String := none
  deriving Repr, DecidableEq, Inhabited

namespace Settings

def callDepthVariable : String := "LOX_MAX_CALL_DEPTH"

def traceVariable : String := "LOX_DEBUG_PY_TRACE"

def set (s : Settings) (variableName : String) (value : Option String) : Settings :=
  if variableName = callDepthVariable then { s with callDepth := value }
  else if variableName = traceVariable then { s with trace := value }
  else s

def maxDigits : Nat := 4300

def digitValues? : List Char → Option (List Nat)
  | [] => none
  | [c] => (Text.digitValue? c).map ([·])
  | c :: '_' :: rest => do
      let value ← Text.digitValue? c
      return value :: (← digitValues? rest)
  | c :: rest => do
      let value ← Text.digitValue? c
      return value :: (← digitValues? rest)

/-- The number that decimal digits of any script spell. -/
def natural? (cs : List Char) : Option Nat := do
  let digits ← digitValues? cs
  if maxDigits < digits.length then none
  else return digits.foldl (fun n d => 10 * n + d) 0

def integer? (text : String) : Option Int :=
  match Text.trim text.toList with
  | '-' :: digits => (natural? digits).map fun n => -(n : Int)
  | '+' :: digits => (natural? digits).map Int.ofNat
  | digits => (natural? digits).map Int.ofNat

def defaultCallDepth : Int := 1000

/-- The number of calls that may be active at once. -/
def maxCallDepth (s : Settings) : Int :=
  match s.callDepth.bind integer? with
  | some n => if 0 < n then n else defaultCallDepth
  | none => defaultCallDepth

/-- The number of stack frames set aside for calls of a depth: sixty-four for each, and a thousand
for what surrounds them. -/
def frameBudget (depth : Int) : Int := depth * 64 + 1000

/-- The greatest number of stack frames that can be asked for: the greatest signed number of
thirty-two bits. -/
def maxFrameBudget : Int := 2147483647

def onWords : List String := ["1", "true", "yes", "on"]

def tracing (s : Settings) : Bool :=
  match s.trace with
  | none => false
  | some text => onWords.contains (String.ofList ((Text.trim text.toList).map Char.toLower))

end Settings

end Lox
