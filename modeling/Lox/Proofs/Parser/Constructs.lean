import Lox.Parser.Statement

namespace Lox.Parser

def declarationWith (e : Parser Expr) (d : Parser (Option Stmt)) (s : Parser Stmt) :
    Parser Stmt := do
  if ← accept .varWord then varDeclaration e
  else if ← accept .funWord then funDeclaration d
  else s

def simpleStatement (inFunction : Bool) (e : Parser Expr) : Parser Stmt := do
  let index ← position
  match ← accept? (· == .returnWord) with
  | some keyword => returnStatement inFunction e keyword index
  | none => expressionStatement e

def statementWith (inFunction : Bool) (e : Parser Expr) (d : Parser (Option Stmt))
    (s : Parser Stmt) : Parser Stmt := do
  if ← accept .printWord then printStatement e
  else if ← accept .leftBrace then .block <$> block d
  else if ← accept .ifWord then ifStatement e s
  else if ← accept .whileWord then whileStatement e s
  else if ← accept .forWord then forStatement e s
  else simpleStatement inFunction e

/-- Induction on how deep constructs may be nested. A function body is read with `inFunction` set,
so both values are shown at each depth. -/
theorem nesting_induction {D : Nat → Bool → Parser (Option Stmt) → Prop}
    {S : Nat → Bool → Parser Stmt → Prop}
    (tooDeep : ∀ inFunction, D 0 inFunction (recover failTooDeep) ∧ S 0 inFunction failTooDeep)
    (declares : ∀ depth inFunction, D depth true (declaration depth true) →
      S depth inFunction (statement depth inFunction) →
      D (depth + 1) inFunction (recover (declarationWith (expression depth .assignment)
        (declaration depth true) (statement depth inFunction))))
    (states : ∀ depth inFunction, D depth inFunction (declaration depth inFunction) →
      S depth inFunction (statement depth inFunction) →
      S (depth + 1) inFunction (statementWith inFunction (expression depth .assignment)
        (declaration depth inFunction) (statement depth inFunction)))
    (depth : Nat) (inFunction : Bool) :
    D depth inFunction (declaration depth inFunction) ∧
      S depth inFunction (statement depth inFunction) := by
  have both := declaration.mutual_induct (fun n f => D n f (declaration n f))
    (fun n f => S n f (statement n f)) (fun f => (tooDeep f).1) declares (fun f => (tooDeep f).2)
    states
  exact ⟨both.1 depth inFunction, both.2 depth inFunction⟩

end Lox.Parser
