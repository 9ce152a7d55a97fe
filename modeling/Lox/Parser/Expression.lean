import Lox.Parser.State
import Lox.Syntax

/-!
Reading expressions.

The grammar has one level for each strength of binding. From the loosest to the tightest these are
assignment, six levels of operators that group to the left, unary operators, calls, and primary
expressions. `expression` reads an expression of any level.
-/

namespace Lox.Parser

inductive Precedence where
  | or | and | equality | comparison | term | factor
  deriving Repr, DecidableEq

inductive Level where
  | assignment
  | chain (precedence : Precedence)
  | unary
  | call
  | primary
  deriving Repr, DecidableEq

def Precedence.operators : Precedence → Token.Kind → Bool
  | .or, .orWord | .and, .andWord => true
  | .equality, .bangEqual | .equality, .equalEqual => true
  | .comparison, .greater | .comparison, .greaterEqual | .comparison, .less
  | .comparison, .lessEqual => true
  | .term, .minus | .term, .plus => true
  | .factor, .slash | .factor, .star => true
  | _, _ => false

def Precedence.operand : Precedence → Level
  | .or => .chain .and
  | .and => .chain .equality
  | .equality => .chain .comparison
  | .comparison => .chain .term
  | .term => .chain .factor
  | .factor => .unary

def Precedence.join : Precedence → Expr → Token → Expr → Expr
  | .or, left, operator, right | .and, left, operator, right => .logical left operator right
  | _, left, operator, right => .binary left operator right

def isUnaryOperator : Token.Kind → Bool
  | .bang | .minus => true
  | _ => false

/-- The operators of one level with their right operands, `left` being what came before. `bound`
limits their number. -/
def chainAfter (precedence : Precedence) (operand : Parser Expr) :
    (bound : List Token) → (left : Expr) → Parser Expr
  | [], left => return left
  | _ :: bound, left => do
      match ← accept? precedence.operators with
      | none => return left
      | some operator =>
          let right ← operand
          chainAfter precedence operand bound (precedence.join left operator right)

def callsAfter (argument : Parser Expr) : (bound : List Token) → (callee : Expr) → Parser Expr
  | [], callee => return callee
  | _ :: bound, callee => do
      if ← accept .leftParen then
        let arguments ← commaList .argument argument
        let paren ← expect .rightParen (.missingMark .rightParen .afterArguments)
        callsAfter argument bound (.call callee paren arguments)
      else
        return callee

def assignTo (target : Expr) (equals : Token) (index : Nat) (value : Expr) : Parser Expr :=
  match target with
  | .variable name => return .assign name value
  | _ => do
      note .invalidTarget equals index
      return target

def primary (inner : Parser Expr) : Parser Expr := do
  if ← accept .falseWord then return .literal (.bool false)
  if ← accept .trueWord then return .literal (.bool true)
  if ← accept .nilWord then return .literal .nil
  if let some t ← accept? (fun kind => kind == .number || kind == .string) then
    return .literal t.literal
  if let some t ← accept? (· == .identifier) then return .variable t
  if ← accept .leftParen then
    let inside ← inner
    expectMark .rightParen .afterExpression
    return .grouping inside
  fail .missingExpression

/-- Reads an expression of a level. `depth` limits how many levels may be open at once. -/
def expression : (depth : Nat) → Level → Parser Expr
  | 0, _ => failTooDeep
  | depth + 1, .assignment => do
      let target ← expression depth (.chain .or)
      let index ← position
      match ← accept? (· == .equal) with
      | none => return target
      | some equals => assignTo target equals index (← expression depth .assignment)
  | depth + 1, .chain precedence => do
      let first ← expression depth precedence.operand
      chainAfter precedence (expression depth precedence.operand) (← remaining) first
  | depth + 1, .unary => do
      match ← accept? isUnaryOperator with
      | some operator => return .unary operator (← expression depth .unary)
      | none => expression depth .call
  | depth + 1, .call => do
      let callee ← expression depth .primary
      callsAfter (expression depth .assignment) (← remaining) callee
  | depth + 1, .primary => primary (expression depth .assignment)

end Lox.Parser
