import Lox.Syntax.Printer

namespace Lox

/-- Which function a value is: the one made by the `n`-th executed declaration, or one of those that
were there before. -/
inductive FunctionId where
  | declared (n : Nat)
  | given (n : Nat)
  deriving Repr, DecidableEq

structure Function where
  id : FunctionId
  name : Token
  params : List Token
  body : List Stmt
  closure : Nat
  deriving Repr

/-- A function that is built in, with a number that tells it from all others. What it does is up to
the host. -/
structure Native where
  id : Nat
  name : String
  arity : Nat
  deriving Repr, DecidableEq

inductive Value where
  | nil
  | bool (value : Bool)
  | number (value : Float)
  | string (value : String)
  | function (value : Function)
  | native (value : Native)
  deriving Inhabited

def Literal.toValue : Literal → Value
  | .nil => .nil
  | .bool b => .bool b
  | .number x => .number x
  | .string s => .string s

namespace Value

def truthy : Value → Bool
  | .nil => false
  | .bool b => b
  | _ => true

/-- Values of different types are never equal. Numbers compare as doubles, so that a value that is
not a number differs from itself. -/
def equals : Value → Value → Bool
  | .nil, .nil => true
  | .bool a, .bool b => a == b
  | .number a, .number b => a == b
  | .string a, .string b => a == b
  | .function f, .function g => f.id == g.id
  | .native f, .native g => f.id == g.id
  | _, _ => false

def text : Value → String
  | .nil => "nil"
  | .bool true => "true"
  | .bool false => "false"
  | .number x => Number.text x
  | .string s => s
  | .function f => "<fn " ++ f.name.lexeme ++ ">"
  | .native _ => "<native fn>"

def arity? : Value → Option Nat
  | .function f => some f.params.length
  | .native f => some f.arity
  | _ => none

end Value

end Lox
