import Lox.Host
import Lox.Operator
import Lox.Store

/-!
Evaluation of expressions and execution of statements.

`evaluate` and `execute` work on a machine: the store, what was printed, and counts of the active
calls, of executed declarations and of calls of built-in functions. A runtime error leaves the
machine as it was at that moment. Fuel bounds how deep evaluation nests and how often a loop goes
round; when it is used up, evaluation ends with `Stop.outOfFuel`, and a run that ends otherwise ends
the same way with more fuel. The host's stack has room for all of evaluation, but a built-in
function can exhaust it; a call takes care of this whatever exhausted it.
-/

namespace Lox

/-- What a run needs and never changes: the host, and the number of calls that may be active at
once. -/
structure Context extends Host where
  limit : Int

structure Machine where
  store : Store := {}
  declared : Nat := 0
  /-- How many times a built-in function was called. -/
  calls : Nat := 0
  depth : Nat := 0
  output : Array String := #[]

inductive Stop where
  | error (error : RuntimeError)
  /-- The stack of the host has no more room. -/
  | exhausted
  | outOfFuel

/-- How a statement ended: a `return` ends all statements up to the call. -/
inductive Completion where
  | normal
  | returning (value : Value)

abbrev Eval (α : Type) := EStateM Stop Machine α

namespace Eval

def fail {α : Type} (cause : RuntimeError.Cause) (token : Token) : Eval α :=
  throw (.error ⟨cause, token⟩)

def ofExcept {α : Type} : Except RuntimeError α → Eval α
  | .ok a => return a
  | .error e => throw (.error e)

def printLine (line : String) : Eval Unit :=
  modify fun m => { m with output := m.output.push line }

def openScope (enclosing : Nat) : Eval Nat := do
  let scope := (← get).store.size
  modify fun m => { m with store := m.store.push (some enclosing) }
  return scope

def define (scope : Nat) (name : String) (value : Value) : Eval Unit :=
  modify fun m => { m with store := m.store.define scope name value }

def lookup (scope : Nat) (name : Token) : Eval Value := do
  match (← get).store.get? scope name.lexeme with
  | some value => return value
  | none => fail .undefinedVariable name

def assign (scope : Nat) (name : Token) (value : Value) : Eval Unit := do
  match (← get).store.resolve? scope name.lexeme with
  | some (owner, _) => define owner name.lexeme value
  | none => fail .undefinedVariable name

def declare (scope : Nat) (name : Token) (params : List Token) (body : List Stmt) : Eval Unit := do
  let id := (← get).declared
  modify fun m => { m with declared := m.declared + 1 }
  define scope name.lexeme (.function ⟨.declared id, name, params, body, scope⟩)

def active {α : Type} (inside : Eval α) : Eval α := fun m =>
  match inside { m with depth := m.depth + 1 } with
  | .ok a m => .ok a { m with depth := m.depth - 1 }
  | .error e m => .error e { m with depth := m.depth - 1 }

def sequence (step : Stmt → Eval Completion) : List Stmt → Eval Completion
  | [] => return .normal
  | s :: rest => do
      match ← step s with
      | .normal => sequence step rest
      | .returning value => return .returning value

/-- Calls a function: its parameters are the variables of a new scope inside the scope of its
declaration. -/
def applyFunction (run : List Stmt → Nat → Eval Completion) (f : Function)
    (arguments : List Value) : Eval Value := do
  let scope ← openScope f.closure
  (f.params.zip arguments).forM fun (param, argument) => define scope param.lexeme argument
  match ← run f.body scope with
  | .normal => return .nil
  | .returning value => return value

def consult (context : Context) (f : Native) (arguments : List Value) : Eval Native.Answer :=
  modifyGet fun m =>
    let effect := context.act f m.calls arguments
    (effect.answer, { m with calls := m.calls + 1, output := m.output ++ effect.printed })

def applyNative (context : Context) (f : Native) (arguments : List Value) : Eval Returned := do
  match ← consult context f arguments with
  | .returns result => return result
  | .raises e => throw (.error e)
  | .exhausts => throw .exhausted

/-- Reports it at a token if the inside of a call exhausts the stack of the host. -/
def guarded {α : Type} (paren : Token) (inside : Eval α) : Eval α :=
  tryCatch inside fun
    | .exhausted => fail .stackOverflow paren
    | stop => throw stop

def unwrap (paren : Token) : Returned → Eval Value
  | .value value => return value
  | .alien typeName => fail (.alienResult typeName) paren

/-- Calls a value. It must be callable, the number of arguments must be right, and there must be
room for one more active call. What a built-in function hands back is looked at when the call is no
longer active. -/
def call (context : Context) (run : List Stmt → Nat → Eval Completion) (callee : Value)
    (paren : Token) (arguments : List Value) : Eval Value := do
  match callee.arity? with
  | none => fail .notCallable paren
  | some arity =>
      if arguments.length ≠ arity then fail (.arity arity arguments.length) paren
      if context.limit ≤ (← get).depth then fail .stackOverflow paren
      match callee with
      | .function f => active (guarded paren (applyFunction run f arguments))
      | .native f => unwrap paren (← active (guarded paren (applyNative context f arguments)))
      | _ => fail .notCallable paren

end Eval

open Eval

mutual

def evaluate (context : Context) : (fuel : Nat) → Expr → (scope : Nat) → Eval Value
  | 0, _, _ => throw .outOfFuel
  | fuel + 1, e, scope =>
      match e with
      | .literal value => return value.toValue
      | .grouping inner => evaluate context fuel inner scope
      | .unary operator operand => do
          let value ← evaluate context fuel operand scope
          ofExcept (Value.applyUnary operator value)
      | .binary left operator right => do
          let a ← evaluate context fuel left scope
          let b ← evaluate context fuel right scope
          ofExcept (Value.applyBinary operator a b)
      | .logical left operator right => do
          let value ← evaluate context fuel left scope
          if Value.decides operator value then return value
          else evaluate context fuel right scope
      | .variable name => lookup scope name
      | .assign name value => do
          let value ← evaluate context fuel value scope
          assign scope name value
          return value
      | .call callee paren arguments => do
          let callee ← evaluate context fuel callee scope
          let arguments ← arguments.mapM fun argument => evaluate context fuel argument scope
          let run := fun body scope => sequence (fun s => execute context fuel s scope) body
          call context run callee paren arguments

def execute (context : Context) : (fuel : Nat) → Stmt → (scope : Nat) → Eval Completion
  | 0, _, _ => throw .outOfFuel
  | fuel + 1, s, scope =>
      match s with
      | .expression value => do
          discard (evaluate context fuel value scope)
          return .normal
      | .print value => do
          printLine (← evaluate context fuel value scope).text
          return .normal
      | .varDecl name initializer => do
          let value ← match initializer with
            | some e => evaluate context fuel e scope
            | none => pure .nil
          define scope name.lexeme value
          return .normal
      | .block body => do
          let inside ← openScope scope
          sequence (fun s => execute context fuel s inside) body
      | .ifElse condition whenTrue whenFalse => do
          if (← evaluate context fuel condition scope).truthy then
            execute context fuel whenTrue scope
          else
            match whenFalse with
            | some s => execute context fuel s scope
            | none => return .normal
      | .whileLoop condition body => do
          if (← evaluate context fuel condition scope).truthy then
            match ← execute context fuel body scope with
            | .normal => execute context fuel (.whileLoop condition body) scope
            | .returning value => return .returning value
          else
            return .normal
      | .funDecl name params body => do
          declare scope name params body
          return .normal
      | .returnStmt _ value =>
          match value with
          | none => return .returning .nil
          | some e => return .returning (← evaluate context fuel e scope)

end

end Lox
