import Lox.Parser.Statement
import Lox.Scan

namespace Lox

inductive SyntaxError where
  | scan (error : ScanError)
  | parse (error : ParseError)
  deriving Repr

namespace SyntaxError

def message : SyntaxError → String
  | .scan e => e.message
  | .parse e => e.message

def line : SyntaxError → Nat
  | .scan e => e.line
  | .parse e => e.line

def report : SyntaxError → String
  | .scan e => e.report
  | .parse e => e.report

end SyntaxError

namespace Parser

/-- How many frames of the host's stack are set aside for a parse. A construct counts for as many as
are open on its way to the next one: a pair of parentheses for ten, a unary operator for one. -/
def frameBudget : Nat := 40000

def start (tokens : List Token) (eof : Token) : State := { rest := tokens, eof }

/-- The declarations of a token list with `none` for each that was dropped, and its errors. -/
def parse (depth : Nat) (tokens : List Token) (eof : Token) :
    List (Option Stmt) × List ParseError :=
  match program depth (start tokens eof) with
  | .ok items s => (items, s.errors.toList)
  | .error _ s => ([], s.errors.toList)

/-- The only expression of a token list. An error that stops is the answer even if others were
noted before it. -/
def parseExpression (depth : Nat) (tokens : List Token) (eof : Token) : Except ParseError Expr :=
  match expression depth .assignment (start tokens eof) with
  | .error e _ => .error e
  | .ok value s =>
      match s.errors.toList, s.rest with
      | e :: _, _ => .error e
      | [], [] => .ok value
      | [], t :: _ => .error ⟨.trailingTokens, t, s.position⟩

end Parser

/-- What was read of a text: one item for each declaration at top level, and all errors. -/
structure Program where
  items : List (Option Stmt)
  errors : List SyntaxError

namespace Program

def read (nesting : Nat) (source : String) : Program :=
  let scan := Scan.ofString source
  let (items, errors) := Parser.parse nesting scan.tokens scan.eof
  { items, errors := scan.errors.map .scan ++ errors.map .parse }

def statements (p : Program) : List Stmt := p.items.filterMap id

def compile (nesting : Nat) (source : String) : Except (List SyntaxError) (List Stmt) :=
  let p := read nesting source
  if p.errors.isEmpty then .ok p.statements else .error p.errors

def readExpression (nesting : Nat) (source : String) : Except SyntaxError Expr :=
  let scan := Scan.ofString source
  match scan.errors with
  | e :: _ => .error (.scan e)
  | [] => (Parser.parseExpression nesting scan.tokens scan.eof).mapError .parse

end Program

end Lox
