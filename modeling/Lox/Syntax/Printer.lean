import Lox.Number
import Lox.Syntax

namespace Lox

def Literal.text : Literal → String
  | .nil => "nil"
  | .bool true => "true"
  | .bool false => "false"
  | .number x => Number.text x
  | .string s => s

def parenthesize (head : String) (parts : List String) : String :=
  "(" ++ " ".intercalate (head :: parts) ++ ")"

mutual

def Expr.text : Expr → String
  | .literal value => value.text
  | .grouping inner => parenthesize "group" [inner.text]
  | .unary operator operand => parenthesize operator.lexeme [operand.text]
  | .binary left operator right => parenthesize operator.lexeme [left.text, right.text]
  | .logical left operator right => parenthesize operator.lexeme [left.text, right.text]
  | .variable name => name.lexeme
  | .assign name value => parenthesize ("= " ++ name.lexeme) [value.text]
  | .call callee _ arguments => parenthesize "call" (callee.text :: Expr.texts arguments)

def Expr.texts : List Expr → List String
  | [] => []
  | e :: rest => e.text :: Expr.texts rest

end

mutual

def Stmt.text : Stmt → String
  | .expression value => parenthesize ";" [value.text]
  | .print value => parenthesize "print" [value.text]
  | .varDecl name none => parenthesize ("var " ++ name.lexeme) []
  | .varDecl name (some value) => parenthesize ("var " ++ name.lexeme ++ " =") [value.text]
  | .block body => parenthesize "block" (Stmt.texts body)
  | .ifElse condition whenTrue none => parenthesize "if" [condition.text, whenTrue.text]
  | .ifElse condition whenTrue (some whenFalse) =>
      parenthesize "if-else" [condition.text, whenTrue.text, whenFalse.text]
  | .whileLoop condition body => parenthesize "while" [condition.text, body.text]
  | .funDecl name params body =>
      let list := " ".intercalate (params.map Token.lexeme)
      parenthesize ("fun " ++ name.lexeme ++ "(" ++ list ++ ")") (Stmt.texts body)
  | .returnStmt _ none => parenthesize "return" []
  | .returnStmt _ (some value) => parenthesize "return" [value.text]

def Stmt.texts : List Stmt → List String
  | [] => []
  | s :: rest => s.text :: Stmt.texts rest

end

end Lox
