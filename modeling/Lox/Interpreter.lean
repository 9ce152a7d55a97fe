import Lox.Evaluation
import Lox.Program
import Lox.Settings

/-!
Interpreters: a machine whose outermost scope holds the global variables, and the ways to run
source text on it.

Globals persist from one text to the next. A text with a syntax error changes nothing; a runtime
error drops the rest of the text and keeps what was done before.
-/

namespace Lox

inductive Event where
  | parsed (declarations errors : Nat)
  | interpreting (statements : Nat)
  | completed
  | aborted (line : Nat)
  deriving Repr, DecidableEq

inductive Failure where
  | syntaxErrors (errors : List SyntaxError)
  | runtimeError (error : RuntimeError)
  /-- The call depth asks for more stack frames than can be set aside. -/
  | depthTooLarge
  /-- The stack of the host had no more room outside of any call. -/
  | exhausted
  | outOfFuel

structure Interpreter where
  context : Context
  machine : Machine
  log : Array Event := #[]

namespace Interpreter

def globals : Nat := 0

def new (context : Context) : Interpreter :=
  let store := context.natives.foldl (fun σ f => σ.define globals f.name (.native f))
    (Store.push {} none)
  { context, machine := { store } }

def globalBindings (i : Interpreter) : List (String × Value) :=
  ((i.machine.store.scopes[globals]?).getD {}).sorted

def printed (i : Interpreter) : List String := i.machine.output.toList

def quiet (i : Interpreter) : Interpreter :=
  { i with machine := { i.machine with output := #[] }, log := #[] }

end Interpreter

abbrev Session (α : Type) := EStateM Failure Interpreter α

namespace Session

def perform {α : Type} (work : Session α) (i : Interpreter) : Except Failure α × Interpreter :=
  match work i with
  | .ok a i => (.ok a, i)
  | .error failure i => (.error failure, i)

def note (event : Event) : Session Unit :=
  modify fun i => { i with log := i.log.push event }

def printLine (line : String) : Session Unit :=
  modify fun i => { i with machine := { i.machine with output := i.machine.output.push line } }

/-- Does work on the machine with no call active. -/
def onMachine {α : Type} (work : Context → Eval α) : Session α := fun i =>
  if Settings.maxFrameBudget < Settings.frameBudget i.context.limit then
    .error .depthTooLarge i
  else
    match work i.context { i.machine with depth := 0 } with
    | .ok a machine => .ok a { i with machine }
    | .error (.error e) machine => .error (.runtimeError e) { i with machine }
    | .error .exhausted machine => .error .exhausted { i with machine }
    | .error .outOfFuel machine => .error .outOfFuel { i with machine }

def interpret (fuel : Nat) (statements : List Stmt) : Session Unit := do
  note (.interpreting statements.length)
  onMachine fun context =>
    statements.forM fun s => discard (execute context fuel s Interpreter.globals)

def evaluateGlobal (fuel : Nat) (e : Expr) : Session Value :=
  onMachine fun context => evaluate context fuel e Interpreter.globals

def read (source : String) : Session Program := do
  let program := Program.read (← get).context.nesting source
  note (.parsed program.items.length program.errors.length)
  return program

def compile (source : String) : Session (List Stmt) := do
  let program ← read source
  if program.errors.isEmpty then return program.statements
  else throw (.syntaxErrors program.errors)

def run (fuel : Nat) (source : String) : Session Unit :=
  tryCatch
    (do
      interpret fuel (← compile source)
      note .completed)
    fun failure => do
      match failure with
      | .syntaxErrors errors => errors.forM fun e => printLine e.report
      | .runtimeError e =>
          printLine e.report
          note (.aborted e.line)
      | .depthTooLarge | .exhausted | .outOfFuel => pure ()
      throw failure

/-- Runs a text as an entry at the prompt. If it is a single expression, with or without a
semicolon, its value is the answer. -/
def enter (fuel : Nat) (source : String) : Session (Option Value) := do
  let program ← read source
  if program.errors.isEmpty then
    match program.statements with
    | [.expression e] => some <$> evaluateGlobal fuel e
    | statements => do
        interpret fuel statements
        return none
  else
    match Program.readExpression (← get).context.nesting source with
    | .ok e => some <$> evaluateGlobal fuel e
    | .error _ => throw (.syntaxErrors program.errors)

def echo (fuel : Nat) (source : String) : Session Unit :=
  tryCatch
    (do
      if let some value ← enter fuel source then printLine value.text)
    fun failure => do
      match failure with
      | .syntaxErrors errors => errors.forM fun e => printLine e.report
      | .runtimeError e => printLine e.report
      | .depthTooLarge | .exhausted | .outOfFuel => pure ()
      throw failure

end Session

end Lox
