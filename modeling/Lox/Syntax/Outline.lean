import Lox.Syntax.Printer

namespace Lox

inductive Outline where
  | node (label : String) (children : List Outline)
  | leaf (kind text : String) (line : Option Nat)
  deriving Repr, Inhabited

namespace Outline

def ofToken (t : Token) : Outline := .leaf t.kind.name t.lexeme (some t.line)

def indent (depth : Nat) : String := String.ofList (List.replicate (2 * depth) ' ')

mutual

/-- The dump of a tree at a depth: one line for each entry, except that a leaf which is an only
child stands behind its parent's label. -/
def prettyAt (depth : Nat) : Outline → String
  | .leaf _ text _ => indent depth ++ text ++ "\n"
  | .node label [.leaf _ text _] => indent depth ++ label ++ "\t" ++ text ++ "\n"
  | .node label children => indent depth ++ label ++ "\n" ++ prettyAll (depth + 1) children

def prettyAll (depth : Nat) : List Outline → String
  | [] => ""
  | tree :: rest => prettyAt depth tree ++ prettyAll depth rest

end

def pretty (tree : Outline) : String := prettyAt 0 tree

end Outline

def Expr.label : Expr → String
  | .literal _ => "literal"
  | .grouping _ => "grouping"
  | .unary .. => "unary"
  | .binary .. => "binary"
  | .logical .. => "logical"
  | .variable _ => "variable"
  | .assign .. => "assign"
  | .call .. => "call"

def Stmt.label : Stmt → String
  | .expression _ => "expression"
  | .print _ => "print"
  | .varDecl .. => "var"
  | .block _ => "block"
  | .ifElse .. => "if"
  | .whileLoop .. => "while"
  | .funDecl .. => "function"
  | .returnStmt .. => "return"

mutual

def Expr.outline : Expr → Outline
  | .literal value => .leaf "LITERAL" value.text none
  | .variable name => .ofToken name
  | e@(.grouping inner) => .node e.label [inner.outline]
  | e@(.unary operator operand) => .node e.label [.ofToken operator, operand.outline]
  | e@(.binary left operator right) =>
      .node e.label [left.outline, .ofToken operator, right.outline]
  | e@(.logical left operator right) =>
      .node e.label [left.outline, .ofToken operator, right.outline]
  | e@(.assign name value) => .node e.label [.ofToken name, value.outline]
  | e@(.call callee _ arguments) =>
      .node e.label [callee.outline, .node "arguments" (Expr.outlines arguments)]

def Expr.outlines : List Expr → List Outline
  | [] => []
  | e :: rest => e.outline :: Expr.outlines rest

end

mutual

def Stmt.outline : Stmt → Outline
  | s@(.expression value) => .node s.label [value.outline]
  | s@(.print value) => .node s.label [value.outline]
  | s@(.varDecl name none) => .node s.label [.ofToken name]
  | s@(.varDecl name (some value)) => .node s.label [.ofToken name, value.outline]
  | s@(.block body) => .node s.label (Stmt.outlines body)
  | s@(.ifElse condition whenTrue none) => .node s.label [condition.outline, whenTrue.outline]
  | s@(.ifElse condition whenTrue (some whenFalse)) =>
      .node s.label [condition.outline, whenTrue.outline, whenFalse.outline]
  | s@(.whileLoop condition body) => .node s.label [condition.outline, body.outline]
  | s@(.funDecl name params body) =>
      .node s.label [.ofToken name, .node "params" (params.map .ofToken),
        .node "body" (Stmt.outlines body)]
  | s@(.returnStmt _ none) => .node s.label []
  | s@(.returnStmt _ (some value)) => .node s.label [value.outline]

def Stmt.outlines : List Stmt → List Outline
  | [] => []
  | s :: rest => s.outline :: Stmt.outlines rest

end

end Lox
