import Lox.Listing
import Lox.Prompt.Loop

namespace Lox

inductive Invocation where
  | help
  | misuse
  | prompt (verbose : Bool)
  | script (path : String) (verbose : Bool)
  deriving Repr, DecidableEq

namespace Invocation

/-- Reads arguments after others that set the options and the script given here. Reading ends at
the first that asks for help or is one script too many. -/
def readAfter (verbose : Bool) (script : Option String) : List String → Invocation
  | [] => match script with
      | none => .prompt verbose
      | some path => .script path verbose
  | argument :: rest =>
      if argument ∈ ["-v", "--verbose"] then readAfter true script rest
      else if argument ∈ ["-h", "--help"] then .help
      else match script with
        | none => readAfter verbose (some argument) rest
        | some _ => .misuse

def ofArguments (arguments : List String) : Invocation := readAfter false none arguments

end Invocation

namespace CommandLine

def usage : String := "Usage: lox [--verbose] [script]\n"

def exitOk : Nat := 0
def exitUsage : Nat := 64
def exitSyntax : Nat := 65
def exitUnreadable : Nat := 66
def exitRuntime : Nat := 70

def exitCode : Except Failure Unit → Except Failure Nat
  | .ok _ => .ok exitOk
  | .error (.syntaxErrors _) => .ok exitSyntax
  | .error (.runtimeError _) => .ok exitRuntime
  | .error failure => .error failure

/-- More fuel than any run can use up. -/
def fuel : Nat := Nat.pow 2 62

def runText (fuel : Nat) (verbose : Bool) (i : Interpreter) (source : String) :
    Except Failure Output := do
  let (outcome, i) := (Session.run fuel source).perform i
  return {
    out := Text.unlines i.printed
    err := if verbose then Text.unlines i.logLines else ""
    exit := ← exitCode outcome }

def unreadable (script : String) (e : ReadError) : Output :=
  { err := "Could not read " ++ script ++ ": " ++ e.message (Path.ofString script) ++ "\n"
    exit := exitUnreadable }

end CommandLine

end Lox
