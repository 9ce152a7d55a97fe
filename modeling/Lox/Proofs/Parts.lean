import Lox.Syntax

namespace Lox

mutual

def Expr.parts : Expr → List Expr
  | .literal value => [.literal value]
  | .grouping inner => .grouping inner :: inner.parts
  | .unary operator operand => .unary operator operand :: operand.parts
  | .binary left operator right => .binary left operator right :: (left.parts ++ right.parts)
  | .logical left operator right => .logical left operator right :: (left.parts ++ right.parts)
  | .variable name => [.variable name]
  | .assign name value => .assign name value :: value.parts
  | .call callee paren arguments =>
      .call callee paren arguments :: (callee.parts ++ Expr.allParts arguments)

def Expr.allParts : List Expr → List Expr
  | [] => []
  | e :: es => e.parts ++ Expr.allParts es

end

mutual

def Stmt.parts : Stmt → List Stmt
  | .expression value => [.expression value]
  | .print value => [.print value]
  | .varDecl name initializer => [.varDecl name initializer]
  | .block body => .block body :: Stmt.allParts body
  | .ifElse condition whenTrue none => .ifElse condition whenTrue none :: whenTrue.parts
  | .ifElse condition whenTrue (some s) =>
      .ifElse condition whenTrue (some s) :: (whenTrue.parts ++ s.parts)
  | .whileLoop condition body => .whileLoop condition body :: body.parts
  | .funDecl name params body => .funDecl name params body :: Stmt.allParts body
  | .returnStmt keyword value => [.returnStmt keyword value]

def Stmt.allParts : List Stmt → List Stmt
  | [] => []
  | s :: body => s.parts ++ Stmt.allParts body

end

mutual

def Stmt.expressions : Stmt → List Expr
  | .expression value => value.parts
  | .print value => value.parts
  | .varDecl _ none => []
  | .varDecl _ (some e) => e.parts
  | .block body => Stmt.allExpressions body
  | .ifElse condition whenTrue none => condition.parts ++ whenTrue.expressions
  | .ifElse condition whenTrue (some s) =>
      condition.parts ++ whenTrue.expressions ++ s.expressions
  | .whileLoop condition body => condition.parts ++ body.expressions
  | .funDecl _ _ body => Stmt.allExpressions body
  | .returnStmt _ none => []
  | .returnStmt _ (some e) => e.parts

def Stmt.allExpressions : List Stmt → List Expr
  | [] => []
  | s :: body => s.expressions ++ Stmt.allExpressions body

end

theorem Expr.mem_parts (e : Expr) : e ∈ e.parts := by
  cases e <;> exact .head _

theorem Expr.mem_allParts {x : Expr} {es : List Expr} :
    x ∈ Expr.allParts es ↔ ∃ e ∈ es, x ∈ e.parts := by
  induction es with
  | nil => simp [allParts]
  | cons e es ih => simp [allParts, ih]

theorem Stmt.mem_parts (s : Stmt) : s ∈ s.parts := by
  rcases s with _ | _ | _ | _ | ⟨_, _, _ | _⟩ | _ | _ | _ <;> exact .head _

theorem Stmt.mem_allParts {t : Stmt} {body : List Stmt} :
    t ∈ Stmt.allParts body ↔ ∃ s ∈ body, t ∈ s.parts := by
  induction body with
  | nil => simp [allParts]
  | cons s body ih => simp [allParts, ih]

theorem Stmt.mem_allExpressions {x : Expr} {body : List Stmt} :
    x ∈ Stmt.allExpressions body ↔ ∃ s ∈ body, x ∈ s.expressions := by
  induction body with
  | nil => simp [allExpressions]
  | cons s body ih => simp [allExpressions, ih]

theorem Stmt.allExpressions_append (before after : List Stmt) :
    Stmt.allExpressions (before ++ after) =
      Stmt.allExpressions before ++ Stmt.allExpressions after := by
  induction before with
  | nil => rfl
  | cons s before ih => simp [allExpressions, ih]

theorem Stmt.parts_forLoop {P : Stmt → Prop} {initializer : Option Stmt}
    {condition increment : Option Expr} {body : Stmt}
    (loop : P (.forLoop none condition increment body)) (block : ∀ inside, P (.block inside))
    (expression : ∀ e, P (.expression e)) (first : ∀ s ∈ initializer, ∀ t ∈ s.parts, P t)
    (inside : ∀ t ∈ body.parts, P t) :
    ∀ t ∈ (Stmt.forLoop initializer condition increment body).parts, P t := by
  have rest : ∀ t ∈ (Stmt.forLoop none condition increment body).parts, P t := by
    cases increment with
    | none => exact List.forall_mem_cons.mpr ⟨loop, inside⟩
    | some step =>
        refine List.forall_mem_cons.mpr ⟨loop, List.forall_mem_cons.mpr ⟨block _, ?_⟩⟩
        refine List.forall_mem_append.mpr ⟨inside, ?_⟩
        exact List.forall_mem_singleton.mpr (expression step)
  cases initializer with
  | none => exact rest
  | some s =>
      refine List.forall_mem_cons.mpr ⟨block _, ?_⟩
      refine List.forall_mem_append.mpr ⟨first s rfl, ?_⟩
      exact List.forall_mem_append.mpr ⟨rest, nofun⟩

end Lox
