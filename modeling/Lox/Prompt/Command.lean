import Lox.Interpreter
import Lox.Text.Blank

namespace Lox

structure Prompt where
  settings : Settings
  host : Host
  verbose : Bool
  interpreter : Interpreter

/-- What was written after an event at the prompt: lines to the output and lines to the error
output, among these perhaps a traceback, and whether the screen was cleared. -/
structure Response where
  out : List String := []
  err : List String := []
  traceback : Bool := false
  cleared : Bool := false

inductive Command where
  | clear
  | traceback (argument : String)
  | reset
  | unknown (name : String)
  deriving Repr, DecidableEq

namespace Command

def descriptions : List (String × String) :=
  [("/clear", "Clear the terminal screen"),
   ("/py-traceback", "Toggle Python traceback on errors"),
   ("/reset", "Reset the REPL environment")]

/-- The command that a line holds, if its first character that is not blank is a slash. -/
def ofLine? (line : String) : Option Command :=
  match Text.trim line.toList with
  | '/' :: rest =>
      let (name, argument) := Text.firstWord ('/' :: rest)
      match String.ofList name with
      | "/clear" => some .clear
      | "/py-traceback" => some (.traceback (String.ofList argument))
      | "/reset" => some .reset
      | name => some (.unknown name)
  | _ => none

def completions (text : String) : List (String × String) :=
  if text.toList.head? == some '/' then
    descriptions.filter fun (name, _) => text.toList.isPrefixOf name.toList
  else []

def switch? (current : Bool) (argument : String) : Option Bool :=
  let word := String.ofList (argument.toList.map Char.toLower)
  if word ∈ ["on", "1", "true", "yes"] then some true
  else if word ∈ ["off", "0", "false", "no"] then some false
  else if word = "" then some !current
  else none

end Command

namespace Prompt

def newInterpreter (p : Prompt) : Interpreter :=
  .new { p.host with limit := p.settings.maxCallDepth }

def start (settings : Settings) (host : Host) (verbose : Bool) : Prompt :=
  { settings, host, verbose, interpreter := .new { host with limit := settings.maxCallDepth } }

def switchTraceback (p : Prompt) (argument : String) : Response × Prompt :=
  match Command.switch? p.settings.tracing argument with
  | none => ({ err := ["Usage: /py-traceback [on|off]"] }, p)
  | some on =>
      let settings := { p.settings with trace := if on then some "1" else none }
      ({ out := ["Python traceback: " ++ if settings.tracing then "on" else "off"] },
        { p with settings })

def perform (p : Prompt) : Command → Response × Prompt
  | .clear => ({ cleared := true }, p)
  | .traceback argument => p.switchTraceback argument
  | .reset =>
      ({ out := ["Environment reset."] }, { p with interpreter := p.newInterpreter })
  | .unknown name => ({ err := ["Unknown command: " ++ name] }, p)

end Prompt

end Lox
