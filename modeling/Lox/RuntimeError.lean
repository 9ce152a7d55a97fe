import Lox.Token

namespace Lox

inductive RuntimeError.Cause where
  | operandNotNumber
  | operandsNotNumbers
  | operandsNotAddable
  | unsupportedUnary
  | unsupportedBinary
  /-- A built-in function returned something that is no value. -/
  | alienResult (typeName : String)
  | undefinedVariable
  | notCallable
  | arity (expected got : Nat)
  | stackOverflow
  | raised (message : String)
  deriving Repr, DecidableEq

/-- The token is the operator, the name or the closing bracket of the call. -/
structure RuntimeError where
  cause : RuntimeError.Cause
  token : Token
  deriving Repr

namespace RuntimeError

def message (e : RuntimeError) : String :=
  let lexeme := e.token.lexeme
  match e.cause with
  | .operandNotNumber => "Operand of '" ++ lexeme ++ "' must be a number."
  | .operandsNotNumbers => "Operands of '" ++ lexeme ++ "' must be numbers."
  | .operandsNotAddable =>
      "Operands of '" ++ lexeme ++ "' must be two numbers or two strings."
  | .unsupportedUnary => "Unsupported unary operator '" ++ lexeme ++ "'."
  | .unsupportedBinary => "Unsupported binary operator '" ++ lexeme ++ "'."
  | .alienResult typeName => "Native function returned unexpected " ++ typeName ++ "."
  | .undefinedVariable => "Undefined variable '" ++ lexeme ++ "'."
  | .notCallable => "Can only call functions and classes."
  | .arity expected got =>
      "Expected " ++ toString expected ++ " arguments but got " ++ toString got ++ "."
  | .stackOverflow => "Stack overflow."
  | .raised message => message

def line (e : RuntimeError) : Nat := e.token.line

def report (e : RuntimeError) : String :=
  e.message ++ "\n[line " ++ toString e.line ++ "]"

end RuntimeError

end Lox
