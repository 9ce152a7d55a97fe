import Lox.Clock
import Lox.CommandLine

namespace Lox.Terminal

open CommandLine

def environmentSettings : IO Settings := do
  return {
    callDepth := ← IO.getEnv Settings.callDepthVariable
    trace := ← IO.getEnv Settings.traceVariable }

def secondsNow : IO Float := do
  return (← IO.monoMsNow).toFloat / 1000

/-- The code of the system for a directory in place of a file. Codes may come negated. -/
def directoryCode : UInt32 := 21

def readText (path : String) : IO (Except ReadError String) := do
  try
    match String.fromUTF8? (← IO.FS.readBinFile (Path.ofString path).spelled) with
    | some text => return .ok (Text.unifyLineEnds text)
    | none => return .error .notText
  catch
    | .permissionDenied .. => return .error .notPermitted
    | .inappropriateType _ code _ =>
        return .error (if code = directoryCode ∨ -code = directoryCode then .isDirectory
          else .notDirectory)
    | .invalidArgument .. => return .error .nameTooLong
    | _ => return .error .noSuchFile

def write (o : Output) : IO UInt32 := do
  IO.print o.out
  IO.eprint o.err
  return o.exit.toUInt32

def respond (r : Response) : IO Unit := do
  if r.cleared then IO.print "\x1b[2J\x1b[H"
  r.out.forM fun line => IO.println line
  r.err.forM fun line => IO.eprintln line

/-- Reads lines of an entry and takes each line end for the enter key; no text at all is the end of
the input. -/
partial def promptLoop (input : IO.FS.Stream) (p : Prompt) (entry : String) : IO UInt32 := do
  IO.print (if entry.isEmpty then "> " else "... ")
  (← IO.getStdout).flush
  let line ← input.getLine
  if line.isEmpty then
    respond Prompt.farewell
    return 0
  let text := entry ++ (line.dropEndWhile (· == '\n')).toString
  match Entry.pressEnter text with
  | .goOn _ => promptLoop input p (text ++ "\n")
  | .submit =>
      match p.submit fuel text with
      | .ok (response, p) =>
          respond response
          promptLoop input p ""
      | .error _ => return 1

end Lox.Terminal

open Lox CommandLine Terminal in
def main (arguments : List String) : IO UInt32 := do
  let settings ← environmentSettings
  let host := (Clock.ticking (← secondsNow)).host Parser.frameBudget
  match Invocation.ofArguments arguments with
  | .help => write { out := usage, exit := exitOk }
  | .misuse => write { out := usage, exit := exitUsage }
  | .prompt verbose =>
      respond Prompt.banner
      promptLoop (← IO.getStdin) (.start settings host verbose) ""
  | .script path verbose =>
      match ← readText path with
      | .error e => write (unreadable path e)
      | .ok text =>
          let i := .new { host with limit := settings.maxCallDepth }
          match runText fuel verbose i text with
          | .ok output => write output
          | .error _ => return 1
