import Lox.Token

/-!
Syntax trees: expressions and statements.

Trees keep the tokens at which errors are reported. A `for` statement has no tree of its own:
`Stmt.forLoop` writes it as a `while` loop.
-/

namespace Lox

inductive Expr where
  | literal (value : Literal)
  | grouping (inner : Expr)
  | unary (operator : Token) (operand : Expr)
  | binary (left : Expr) (operator : Token) (right : Expr)
  | logical (left : Expr) (operator : Token) (right : Expr)
  | variable (name : Token)
  | assign (name : Token) (value : Expr)
  /-- `paren` is the closing bracket. -/
  | call (callee : Expr) (paren : Token) (arguments : List Expr)
  deriving Repr, Inhabited

inductive Stmt where
  | expression (value : Expr)
  | print (value : Expr)
  | varDecl (name : Token) (initializer : Option Expr)
  | block (body : List Stmt)
  | ifElse (condition : Expr) (whenTrue : Stmt) (whenFalse : Option Stmt)
  | whileLoop (condition : Expr) (body : Stmt)
  | funDecl (name : Token) (params : List Token) (body : List Stmt)
  | returnStmt (keyword : Token) (value : Option Expr)
  deriving Repr, Inhabited

/-- The loop `for (initializer; condition; increment) body`. The initializer runs once in a scope
around the loop, the increment after each round of the body; without a condition the loop goes on
for ever. -/
def Stmt.forLoop (initializer : Option Stmt) (condition increment : Option Expr) (body : Stmt) :
    Stmt :=
  let round := match increment with
    | some step => .block [body, .expression step]
    | none => body
  let loop := .whileLoop (condition.getD (.literal (.bool true))) round
  match initializer with
  | some first => .block [first, loop]
  | none => loop

end Lox
