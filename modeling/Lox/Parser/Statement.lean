import Lox.Parser.Expression

/-!
Reading declarations and statements.

The readers of the single constructs are given the readers of their parts; `declaration` and
`statement` tie them together. `inFunction` tells whether a function body is being read.
-/

namespace Lox.Parser

def varDeclaration (expression : Parser Expr) : Parser Stmt := do
  let name ← expectName .variable
  let initializer ← if ← accept .equal then some <$> expression else pure none
  expectMark .semicolon .afterVariableDeclaration
  return .varDecl name initializer

def expressionStatement (expression : Parser Expr) : Parser Stmt := do
  let value ← expression
  expectMark .semicolon .afterExpression
  return .expression value

def printStatement (expression : Parser Expr) : Parser Stmt := do
  let value ← expression
  expectMark .semicolon .afterValue
  return .print value

/-- Declarations up to a closing brace or the end, those with errors left out. `bound` limits their
number, `done` holds those before in reverse order. -/
def declarationsAfter (declaration : Parser (Option Stmt)) :
    (bound : List Token) → (done : List Stmt) → Parser (List Stmt)
  | [], done => return done.reverse
  | _ :: bound, done => do
      if ← check (· == .rightBrace) then return done.reverse
      if ← atEnd then return done.reverse
      match ← declaration with
      | some item => declarationsAfter declaration bound (item :: done)
      | none => declarationsAfter declaration bound done

def block (declaration : Parser (Option Stmt)) : Parser (List Stmt) := do
  let body ← declarationsAfter declaration (← remaining) []
  expectMark .rightBrace .afterBlock
  return body

def funDeclaration (declaration : Parser (Option Stmt)) : Parser Stmt := do
  let name ← expectName .function
  expectMark .leftParen .afterFunctionName
  let params ← commaList .parameter (expectName .parameter)
  expectMark .rightParen .afterParameters
  expectMark .leftBrace .beforeFunctionBody
  return .funDecl name params (← block declaration)

def ifStatement (expression : Parser Expr) (statement : Parser Stmt) : Parser Stmt := do
  expectMark .leftParen .afterIf
  let condition ← expression
  expectMark .rightParen .afterIfCondition
  let whenTrue ← statement
  let whenFalse ← if ← accept .elseWord then some <$> statement else pure none
  return .ifElse condition whenTrue whenFalse

def whileStatement (expression : Parser Expr) (statement : Parser Stmt) : Parser Stmt := do
  expectMark .leftParen .afterWhile
  let condition ← expression
  expectMark .rightParen .afterCondition
  return .whileLoop condition (← statement)

def forInitializer (expression : Parser Expr) : Parser (Option Stmt) := do
  if ← accept .semicolon then return none
  if ← accept .varWord then some <$> varDeclaration expression
  else some <$> expressionStatement expression

def forStatement (expression : Parser Expr) (statement : Parser Stmt) : Parser Stmt := do
  expectMark .leftParen .afterFor
  let initializer ← forInitializer expression
  let condition ← if ← check (· == .semicolon) then pure none else some <$> expression
  expectMark .semicolon .afterLoopCondition
  let increment ← if ← check (· == .rightParen) then pure none else some <$> expression
  expectMark .rightParen .afterForClauses
  return .forLoop initializer condition increment (← statement)

def returnStatement (inFunction : Bool) (expression : Parser Expr) (keyword : Token)
    (index : Nat) : Parser Stmt := do
  if !inFunction then note .topLevelReturn keyword index
  let value ← if ← check (· == .semicolon) then pure none else some <$> expression
  expectMark .semicolon .afterReturnValue
  return .returnStmt keyword value

mutual

/-- Reads a declaration, or skips it if it has an error that stops. `depth` limits how many
constructs may be open at once. -/
def declaration : (depth : Nat) → (inFunction : Bool) → Parser (Option Stmt)
  | 0, _ => recover failTooDeep
  | depth + 1, inFunction => recover do
      if ← accept .varWord then varDeclaration (expression depth .assignment)
      else if ← accept .funWord then funDeclaration (declaration depth true)
      else statement depth inFunction

def statement : (depth : Nat) → (inFunction : Bool) → Parser Stmt
  | 0, _ => failTooDeep
  | depth + 1, inFunction => do
      if ← accept .printWord then printStatement (expression depth .assignment)
      else if ← accept .leftBrace then .block <$> block (declaration depth inFunction)
      else if ← accept .ifWord then
        ifStatement (expression depth .assignment) (statement depth inFunction)
      else if ← accept .whileWord then
        whileStatement (expression depth .assignment) (statement depth inFunction)
      else if ← accept .forWord then
        forStatement (expression depth .assignment) (statement depth inFunction)
      else
        let index ← position
        match ← accept? (· == .returnWord) with
        | some keyword =>
            returnStatement inFunction (expression depth .assignment) keyword index
        | none => expressionStatement (expression depth .assignment)

end

/-- The declarations of a program up to its end, `none` in place of each that has an error which
stops. `bound` limits their number, `done` holds those before in reverse order. -/
def programAfter (depth : Nat) :
    (bound : List Token) → (done : List (Option Stmt)) → Parser (List (Option Stmt))
  | [], done => return done.reverse
  | _ :: bound, done => do
      if ← atEnd then return done.reverse
      programAfter depth bound ((← declaration depth false) :: done)

def program (depth : Nat) : Parser (List (Option Stmt)) := do
  programAfter depth (← remaining) []

end Lox.Parser
