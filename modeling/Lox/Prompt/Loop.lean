import Lox.Prompt.Command
import Lox.Prompt.Entry

namespace Lox

def Event.message : Event → String
  | .parsed declarations errors =>
      "lox_ref.runner: parsed " ++ toString declarations ++ " declarations with "
        ++ toString errors ++ " syntax errors"
  | .interpreting statements =>
      "lox_ref.evaluator: interpreting " ++ toString statements ++ " statements"
  | .completed => "lox_ref.runner: run completed"
  | .aborted line => "lox_ref.runner: run aborted by runtime error at line " ++ toString line

def Interpreter.logLines (i : Interpreter) : List String := i.log.toList.map Event.message

namespace Prompt

def banner : Response := { out := ["lox repl (Ctrl-D to exit, / for commands)"] }

def farewell : Response := { out := [""] }

def interrupted : Response := { out := ["KeyboardInterrupt"] }

def evaluate (p : Prompt) (fuel : Nat) (text : String) : Except Failure (Response × Prompt) := do
  let (outcome, i) := (Session.echo fuel text).perform p.interpreter.quiet
  let traceback ← match outcome with
    | .ok _ | .error (.syntaxErrors _) => pure false
    | .error (.runtimeError _) => pure p.settings.tracing
    | .error failure => throw failure
  return ({ out := i.printed, err := if p.verbose then i.logLines else [], traceback },
    { p with interpreter := i.quiet })

def submit (p : Prompt) (fuel : Nat) (text : String) : Except Failure (Response × Prompt) :=
  let text := Entry.normalize text
  if (Text.trim text.toList).isEmpty then .ok ({}, p)
  else match Command.ofLine? text with
    | some command => .ok (p.perform command)
    | none => p.evaluate fuel text

end Prompt

end Lox
