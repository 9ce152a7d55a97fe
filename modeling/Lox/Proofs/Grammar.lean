import Lox.Parser.Error
import Lox.Parser.Expression

/-!
The grammar of the language, as relations between token lists and trees.

`Grammar.Program` relates the tokens of a text to its declarations. Each production says which
tokens stand for a construct and which tree the construct has; none of them looks at the tokens
around it. Nesting is counted: a construct of nesting `n + 1` has parts of nesting `n`, where the
operators of one level in a row, and the calls in a row, count once.
-/

namespace Lox.Grammar
open Lox.Parser (Precedence Level)

def strength? : Token.Kind → Option Precedence
  | .orWord => some .or
  | .andWord => some .and
  | .bangEqual | .equalEqual => some .equality
  | .greater | .greaterEqual | .less | .lessEqual => some .comparison
  | .minus | .plus => some .term
  | .slash | .star => some .factor
  | _ => none

def tighter? : Level → Option Level
  | .assignment => some (.chain .or)
  | .chain .or => some (.chain .and)
  | .chain .and => some (.chain .equality)
  | .chain .equality => some (.chain .comparison)
  | .chain .comparison => some (.chain .term)
  | .chain .term => some (.chain .factor)
  | .chain .factor => some .unary
  | .unary => some .call
  | .call => some .primary
  | .primary => none

def joined (p : Precedence) (left : Expr) (operator : Token) (right : Expr) : Expr :=
  if p = .or ∨ p = .and then .logical left operator right else .binary left operator right

def constant? (t : Token) : Option Literal :=
  match t.kind with
  | .falseWord => some (.bool false)
  | .trueWord => some (.bool true)
  | .nilWord => some .nil
  | .number | .string => some t.literal
  | _ => none

mutual

/-- The tokens and the tree of an expression of a level. -/
inductive Phrase : (nesting : Nat) → Level → List Token → Expr → Prop
  | tighter {n l k ts e} (next : tighter? l = some k) (inner : Phrase n k ts e) :
      Phrase (n + 1) l ts e
  | assign {n name equals ts e} (target : name.kind = .identifier) (mark : equals.kind = .equal)
      (value : Phrase n .assignment ts e) :
      Phrase (n + 1) .assignment (name :: equals :: ts) (.assign name e)
  /-- The left operand may end in an operator of the same level, the right one may not. -/
  | operator {n p k ls a op rs b} (left : Phrase (n + 1) (.chain p) ls a)
      (strength : strength? op.kind = some p) (next : tighter? (.chain p) = some k)
      (right : Phrase n k rs b) :
      Phrase (n + 1) (.chain p) (ls ++ op :: rs) (joined p a op b)
  | unary {n op ts e} (sign : op.kind = .bang ∨ op.kind = .minus)
      (operand : Phrase n .unary ts e) :
      Phrase (n + 1) .unary (op :: ts) (.unary op e)
  | call {n ts f opening us args closing} (callee : Phrase (n + 1) .call ts f)
      (opens : opening.kind = .leftParen) (arguments : Arguments n us args)
      (few : args.length ≤ 255) (closes : closing.kind = .rightParen) :
      Phrase (n + 1) .call (ts ++ opening :: us ++ [closing]) (.call f closing args)
  | literal {n t v} (value : constant? t = some v) : Phrase (n + 1) .primary [t] (.literal v)
  | name {n t} (identifier : t.kind = .identifier) : Phrase (n + 1) .primary [t] (.variable t)
  | grouping {n opening ts e closing} (opens : opening.kind = .leftParen)
      (inner : Phrase n .assignment ts e) (closes : closing.kind = .rightParen) :
      Phrase (n + 1) .primary (opening :: ts ++ [closing]) (.grouping e)

inductive Arguments : (nesting : Nat) → List Token → List Expr → Prop
  | none {n} : Arguments n [] []
  | last {n ts e} (item : Phrase n .assignment ts e) : Arguments n ts [e]
  | more {n ts e comma us e' es} (item : Phrase n .assignment ts e) (mark : comma.kind = .comma)
      (others : Arguments n us (e' :: es)) : Arguments n (ts ++ comma :: us) (e :: e' :: es)

end

inductive Clause (n : Nat) : List Token → Option Expr → Prop
  | absent : Clause n [] none
  | present {ts e} (value : Phrase n .assignment ts e) : Clause n ts (some e)

inductive Parameters : List Token → List Token → Prop
  | none : Parameters [] []
  | last {name} (item : name.kind = .identifier) : Parameters [name] [name]
  | more {name comma us name' names} (item : name.kind = .identifier) (mark : comma.kind = .comma)
      (others : Parameters us (name' :: names)) :
      Parameters (name :: comma :: us) (name :: name' :: names)

inductive Variable (n : Nat) : List Token → Stmt → Prop
  | plain {name close} (identifier : name.kind = .identifier) (closes : close.kind = .semicolon) :
      Variable n [name, close] (.varDecl name none)
  | initialized {name equals ts e close} (identifier : name.kind = .identifier)
      (mark : equals.kind = .equal) (value : Phrase n .assignment ts e)
      (closes : close.kind = .semicolon) :
      Variable n (name :: equals :: ts ++ [close]) (.varDecl name (some e))

inductive Initializer (n : Nat) : List Token → Option Stmt → Prop
  | absent {close} (closes : close.kind = .semicolon) : Initializer n [close] none
  | declaration {word ts s} (var : word.kind = .varWord) (rest : Variable n ts s) :
      Initializer n (word :: ts) (some s)
  | expression {ts e close} (value : Phrase n .assignment ts e)
      (closes : close.kind = .semicolon) : Initializer n (ts ++ [close]) (some (.expression e))

mutual

inductive Declaration : (nesting : Nat) → (inFunction : Bool) → List Token → Stmt → Prop
  | varDecl {n f word ts s} (var : word.kind = .varWord) (rest : Variable n ts s) :
      Declaration (n + 1) f (word :: ts) s
  | funDecl {n f word name opening us params closing brace ts body finish}
      (fn : word.kind = .funWord) (identifier : name.kind = .identifier)
      (opens : opening.kind = .leftParen) (parameters : Parameters us params)
      (few : params.length ≤ 255) (closes : closing.kind = .rightParen)
      (begins : brace.kind = .leftBrace) (inside : Declarations n true ts body)
      (ends : finish.kind = .rightBrace) :
      Declaration (n + 1) f (word :: name :: opening :: us ++ closing :: brace :: ts ++ [finish])
        (.funDecl name params body)
  | statement {n f ts s} (plain : Statement n f false ts s) : Declaration (n + 1) f ts s

/-- The tokens and the tree of a statement. A closed one does not end in an `if` without `else`:
only such a statement can stand before an `else`, which therefore belongs to the nearest `if`. -/
inductive Statement : (nesting : Nat) → (inFunction closed : Bool) → List Token → Stmt → Prop
  | expression {n f c ts e close} (value : Phrase n .assignment ts e)
      (closes : close.kind = .semicolon) :
      Statement (n + 1) f c (ts ++ [close]) (.expression e)
  | print {n f c word ts e close} (print : word.kind = .printWord)
      (value : Phrase n .assignment ts e) (closes : close.kind = .semicolon) :
      Statement (n + 1) f c (word :: ts ++ [close]) (.print e)
  | block {n f c brace ts body finish} (begins : brace.kind = .leftBrace)
      (inside : Declarations n f ts body) (ends : finish.kind = .rightBrace) :
      Statement (n + 1) f c (brace :: ts ++ [finish]) (.block body)
  | ifThen {n f word opening ts e closing us s} (ifs : word.kind = .ifWord)
      (opens : opening.kind = .leftParen) (condition : Phrase n .assignment ts e)
      (closes : closing.kind = .rightParen) (whenTrue : Statement n f false us s) :
      Statement (n + 1) f false (word :: opening :: ts ++ closing :: us) (.ifElse e s none)
  | ifElse {n f c word opening ts e closing us s middle vs t} (ifs : word.kind = .ifWord)
      (opens : opening.kind = .leftParen) (condition : Phrase n .assignment ts e)
      (closes : closing.kind = .rightParen) (whenTrue : Statement n f true us s)
      (elses : middle.kind = .elseWord) (whenFalse : Statement n f c vs t) :
      Statement (n + 1) f c (word :: opening :: ts ++ closing :: us ++ middle :: vs)
        (.ifElse e s (some t))
  | whileLoop {n f c word opening ts e closing us s} (whiles : word.kind = .whileWord)
      (opens : opening.kind = .leftParen) (condition : Phrase n .assignment ts e)
      (closes : closing.kind = .rightParen) (body : Statement n f c us s) :
      Statement (n + 1) f c (word :: opening :: ts ++ closing :: us) (.whileLoop e s)
  /-- A `for` statement has the tree of its `while` form. -/
  | forLoop {n f c word opening is first ts condition semicolon us step closing vs s}
      (fors : word.kind = .forWord) (opens : opening.kind = .leftParen)
      (initializer : Initializer n is first) (test : Clause n ts condition)
      (mark : semicolon.kind = .semicolon) (increment : Clause n us step)
      (closes : closing.kind = .rightParen) (body : Statement n f c vs s) :
      Statement (n + 1) f c
        (word :: opening :: is ++ ts ++ semicolon :: us ++ closing :: vs)
        (.forLoop first condition step s)
  | returnStmt {n c word ts value close} (returns : word.kind = .returnWord)
      (result : Clause n ts value) (closes : close.kind = .semicolon) :
      Statement (n + 1) true c (word :: ts ++ [close]) (.returnStmt word value)

inductive Declarations : (nesting : Nat) → (inFunction : Bool) → List Token → List Stmt → Prop
  | nil {n f} : Declarations n f [] []
  | cons {n f ts s us body} (head : Declaration n f ts s) (tail : Declarations n f us body) :
      Declarations n f (ts ++ us) (s :: body)

end

/-- The tokens of a program, without the mark of the end, and its declarations. -/
def Program (tokens : List Token) (body : List Stmt) : Prop :=
  ∃ n, Declarations n false tokens body

end Lox.Grammar
