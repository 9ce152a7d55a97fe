import Lox.Proofs.Grammar.Nesting

namespace Lox.Grammar
open Lox.Parser (Precedence Level)

def faces (rest : List Token) (kinds : Token.Kind → Bool) : Bool :=
  rest.head?.any fun t => kinds t.kind

@[simp] theorem faces_cons (t : Token) (rest : List Token) (kinds : Token.Kind → Bool) :
    faces (t :: rest) kinds = kinds t.kind := rfl

theorem faces_append {ts : List Token} {kinds : Token.Kind → Bool} (h : faces ts kinds = true)
    (rest : List Token) (others : Token.Kind → Bool) :
    faces (ts ++ rest) others = faces ts others := by
  cases ts with
  | nil => simp [faces] at h
  | cons t ts => rfl

theorem faces_weaken {rest : List Token} {more fewer : Token.Kind → Bool}
    (le : ∀ kind, fewer kind = true → more kind = true) (h : faces rest fewer = true) :
    faces rest more = true := by
  cases rest with
  | nil => simp [faces] at h
  | cons t rest => exact le t.kind h

theorem faces_mono {rest : List Token} {more fewer : Token.Kind → Bool}
    (le : ∀ kind, fewer kind = true → more kind = true) (no : faces rest more = false) :
    faces rest fewer = false := by
  cases h : faces rest fewer with
  | true => rw [faces_weaken le h] at no; exact no
  | false => rfl

theorem faces_disjoint {rest : List Token} {kinds others : Token.Kind → Bool}
    (h : faces rest kinds = true) (apart : ∀ kind, kinds kind = true → others kind = false) :
    faces rest others = false := by
  cases rest with
  | nil => rfl
  | cons t rest => exact apart t.kind h

theorem faces_of_eq {rest : List Token} {kind : Token.Kind}
    (h : faces rest (· == kind) = true) (kinds : Token.Kind → Bool) :
    faces rest kinds = kinds kind := by
  cases rest with
  | nil => simp [faces] at h
  | cons t rest =>
      simp only [faces_cons, beq_iff_eq] at h ⊢
      rw [h]

def beginsOperand : Token.Kind → Bool
  | .falseWord | .trueWord | .nilWord | .number | .string | .identifier | .leftParen => true
  | _ => false

def beginsExpression (kind : Token.Kind) : Bool :=
  beginsOperand kind || kind == .bang || kind == .minus

def beginsStatement (kind : Token.Kind) : Bool :=
  beginsExpression kind || kind == .printWord || kind == .leftBrace || kind == .ifWord ||
    kind == .whileWord || kind == .forWord || kind == .returnWord

def beginsDeclaration (kind : Token.Kind) : Bool :=
  beginsStatement kind || kind == .varWord || kind == .funWord

mutual

theorem Phrase.beginsOperand {n : Nat} {l : Level} {ts : List Token} {e : Expr} :
    Phrase n l ts e → height l ≤ 2 → faces ts beginsOperand = true
  | .tighter next inner, low => by
      have step := height_tighter next
      exact inner.beginsOperand (by omega)
  | .assign _ _ _, low | .unary _ _, low => by simp [height] at low
  | @Phrase.operator _ p _ _ _ _ _ _ _ _ _ _, low => by cases p <;> simp [height] at low
  | .call callee _ _ _ _, low => by
      have first := callee.beginsOperand low
      rw [List.append_assoc, faces_append first]
      exact first
  | @Phrase.literal _ t _ value, _ => by
      revert value
      rw [constant?, faces_cons]
      cases t.kind <;> simp [Grammar.beginsOperand]
  | .name identifier, _ => by rw [faces_cons, identifier]; rfl
  | .grouping opens _ _, _ => by rw [List.cons_append, faces_cons, opens]; rfl

theorem Phrase.begins {n : Nat} {l : Level} {ts : List Token} {e : Expr} :
    Phrase n l ts e → faces ts beginsExpression = true
  | .tighter _ inner => inner.begins
  | .assign target _ _ => by rw [faces_cons, target]; rfl
  | .operator left _ _ _ => by
      rw [faces_append left.begins]
      exact left.begins
  | .unary sign _ => by rcases sign with sign | sign <;> rw [faces_cons, sign] <;> rfl
  | .call callee _ _ _ _ => by
      rw [List.append_assoc, faces_append callee.begins]
      exact callee.begins
  | @Phrase.literal _ t _ value => by
      revert value
      rw [constant?, faces_cons]
      cases t.kind <;> simp [beginsExpression, Grammar.beginsOperand]
  | .name identifier => by rw [faces_cons, identifier]; rfl
  | .grouping opens _ _ => by rw [List.cons_append, faces_cons, opens]; rfl

end

theorem Statement.begins {n : Nat} {f c : Bool} {ts : List Token} {s : Stmt}
    (h : Statement n f c ts s) : faces ts beginsStatement = true := by
  cases h with
  | expression value closes =>
      rw [faces_append value.begins]
      exact faces_weaken (fun kind => by simp +contextual [beginsStatement]) value.begins
  | print word => simp [beginsStatement, word]
  | block brace => simp [beginsStatement, brace]
  | ifThen word => simp [beginsStatement, word]
  | ifElse word => simp [beginsStatement, word]
  | whileLoop word => simp [beginsStatement, word]
  | forLoop word => simp [beginsStatement, word]
  | returnStmt word => simp [beginsStatement, word]

theorem Declaration.begins {n : Nat} {f : Bool} {ts : List Token} {s : Stmt}
    (h : Declaration n f ts s) : faces ts beginsDeclaration = true := by
  cases h with
  | varDecl word => simp [beginsDeclaration, word]
  | funDecl word => simp [beginsDeclaration, word]
  | statement plain =>
      exact faces_weaken (fun kind => by simp +contextual [beginsDeclaration]) plain.begins

theorem Declarations.begins {n : Nat} {f : Bool} {ts : List Token} {body : List Stmt}
    (h : Declarations n f ts body) (nonempty : ts ≠ []) : faces ts beginsDeclaration = true := by
  cases h with
  | nil => exact absurd rfl nonempty
  | cons head => rw [faces_append head.begins, head.begins]

def continues : Level → Token.Kind → Bool
  | .primary, _ => false
  | .call, kind | .unary, kind => kind == .leftParen
  | .chain p, kind =>
      kind == .leftParen || (strength? kind).any fun q => height (.chain q) ≤ height (.chain p)
  | .assignment, kind => kind == .equal || kind == .leftParen || (strength? kind).isSome

theorem continues_tighter {l k : Level} (next : tighter? l = some k) (kind : Token.Kind)
    (h : continues k kind = true) : continues l kind = true := by
  rcases l with _ | p | _ | _ | _
  case chain => cases p <;> cases next <;> revert h <;> cases kind <;> decide
  all_goals cases next
  all_goals revert h; cases kind <;> decide

theorem faces_tighter {l k : Level} (next : tighter? l = some k) {rest : List Token}
    (no : faces rest (continues l) = false) : faces rest (continues k) = false :=
  faces_mono (continues_tighter next) no

theorem continues_operator {p : Precedence} {k : Level} (next : tighter? (.chain p) = some k)
    {kind : Token.Kind} (strength : strength? kind = some p) : continues k kind = false := by
  revert strength
  cases p <;> cases next <;> cases kind <;> decide

end Lox.Grammar
