import Lox.Proofs.Grammar
import Lox.Proofs.Parts

namespace Lox

def Token.Kind.isOperator : Kind → Bool
  | .bang | .minus | .plus | .slash | .star | .bangEqual | .equalEqual | .greater | .greaterEqual
  | .less | .lessEqual => true
  | _ => false

def Expr.From (tokens : List Token) : Expr → Prop
  | .variable t | .assign t _ => t ∈ tokens ∧ t.kind = .identifier
  | .unary op _ | .binary _ op _ => op ∈ tokens ∧ op.kind.isOperator = true
  | .call _ paren _ => paren ∈ tokens ∧ paren.kind = .rightParen
  | .literal _ | .grouping _ | .logical _ _ _ => True

theorem Stmt.expressions_forLoop {P : Expr → Prop} {initializer : Option Stmt}
    {condition increment : Option Expr} {body : Stmt}
    (first : ∀ s ∈ initializer, ∀ x ∈ s.expressions, P x)
    (test : ∀ e ∈ condition, ∀ x ∈ e.parts, P x) (always : P (.literal (.bool true)))
    (step : ∀ e ∈ increment, ∀ x ∈ e.parts, P x) (inside : ∀ x ∈ body.expressions, P x) :
    ∀ x ∈ (Stmt.forLoop initializer condition increment body).expressions, P x := by
  have tested : ∀ x ∈ (condition.getD (.literal (.bool true))).parts, P x := by
    cases condition with
    | none => exact List.forall_mem_singleton.mpr always
    | some e => exact test e rfl
  have loop : ∀ x ∈ (Stmt.forLoop none condition increment body).expressions, P x := by
    cases increment with
    | none => exact List.forall_mem_append.mpr ⟨tested, inside⟩
    | some e =>
        refine List.forall_mem_append.mpr ⟨tested, List.forall_mem_append.mpr ⟨inside, ?_⟩⟩
        exact List.forall_mem_append.mpr ⟨step e rfl, nofun⟩
  cases initializer with
  | none => exact loop
  | some s => exact List.forall_mem_append.mpr ⟨first s rfl, List.forall_mem_append.mpr ⟨loop, nofun⟩⟩

namespace Grammar
open Lox.Parser (Level Precedence)

/-- The expression stands for some of the given tokens, or it is the test of a loop without one. -/
inductive Written (all : List Token) : Expr → Prop
  | phrase {n l ts e} (h : Phrase n l ts e) (tokens : ∀ t ∈ ts, t ∈ all) : Written all e
  | always : Written all (.literal (.bool true))

variable {all : List Token} {n : Nat} {f c : Bool} {ts : List Token}

theorem parts_joined {P : Expr → Prop} {p : Precedence} {a b : Expr} {op : Token}
    (root : P (joined p a op b)) (left : ∀ x ∈ a.parts, P x) (right : ∀ x ∈ b.parts, P x) :
    ∀ x ∈ (joined p a op b).parts, P x := by
  have operands := List.forall_mem_append.mpr ⟨left, right⟩
  unfold joined at root ⊢
  split at root
  · rw [if_pos ‹_›]
    exact List.forall_mem_cons.mpr ⟨root, operands⟩
  · rw [if_neg ‹_›]
    exact List.forall_mem_cons.mpr ⟨root, operands⟩

mutual

theorem Phrase.written {n : Nat} {l : Level} {ts : List Token} {e : Expr} :
    Phrase n l ts e → (∀ t ∈ ts, t ∈ all) → ∀ x ∈ e.parts, Written all x
  | .tighter _ inner, tokens => inner.written tokens
  | .assign target mark value, tokens => by
      have root := Written.phrase (.assign target mark value) tokens
      obtain ⟨-, -, rest⟩ : _ ∧ _ ∧ _ := by simpa only [List.forall_mem_cons] using tokens
      exact List.forall_mem_cons.mpr ⟨root, value.written rest⟩
  | .operator left strength next right, tokens => by
      have root := Written.phrase (.operator left strength next right) tokens
      obtain ⟨first, -, second⟩ : _ ∧ _ ∧ _ := by
        simpa only [List.forall_mem_append, List.forall_mem_cons] using tokens
      exact parts_joined root (left.written first) (right.written second)
  | .unary sign operand, tokens => by
      have root := Written.phrase (.unary sign operand) tokens
      obtain ⟨-, rest⟩ := List.forall_mem_cons.mp tokens
      exact List.forall_mem_cons.mpr ⟨root, operand.written rest⟩
  | .call callee opens arguments few closes, tokens => by
      have root := Written.phrase (.call callee opens arguments few closes) tokens
      obtain ⟨⟨first, -, items⟩, -, -⟩ : (_ ∧ _ ∧ _) ∧ _ ∧ _ := by
        simpa only [List.forall_mem_append, List.forall_mem_cons] using tokens
      exact List.forall_mem_cons.mpr ⟨root,
        List.forall_mem_append.mpr ⟨callee.written first, arguments.written items⟩⟩
  | .literal value, tokens => List.forall_mem_singleton.mpr (.phrase (.literal (n := 0) value) tokens)
  | .name identifier, tokens => List.forall_mem_singleton.mpr (.phrase (.name (n := 0) identifier) tokens)
  | .grouping opens inner closes, tokens => by
      have root := Written.phrase (.grouping opens inner closes) tokens
      obtain ⟨⟨-, rest⟩, -⟩ : (_ ∧ _) ∧ _ := by
        simpa only [List.forall_mem_append, List.forall_mem_cons] using tokens
      exact List.forall_mem_cons.mpr ⟨root, inner.written rest⟩

theorem Arguments.written {n : Nat} {ts : List Token} {es : List Expr} :
    Arguments n ts es → (∀ t ∈ ts, t ∈ all) → ∀ x ∈ Expr.allParts es, Written all x
  | .none, _ => nofun
  | .last item, tokens => List.forall_mem_append.mpr ⟨item.written tokens, nofun⟩
  | .more item _ others, tokens => by
      obtain ⟨first, -, rest⟩ : _ ∧ _ ∧ _ := by
        simpa only [List.forall_mem_append, List.forall_mem_cons] using tokens
      exact List.forall_mem_append.mpr ⟨item.written first, others.written rest⟩

end

theorem Clause.written {o : Option Expr} (h : Clause n ts o) (tokens : ∀ t ∈ ts, t ∈ all) :
    ∀ e ∈ o, ∀ x ∈ e.parts, Written all x := by
  rintro e ⟨⟩
  cases h with
  | present value => exact value.written tokens

theorem Variable.written {s : Stmt} (h : Variable n ts s) (tokens : ∀ t ∈ ts, t ∈ all) :
    ∀ x ∈ s.expressions, Written all x := by
  cases h with
  | plain => exact nofun
  | initialized _ _ value =>
      obtain ⟨⟨-, -, rest⟩, -⟩ : (_ ∧ _ ∧ _) ∧ _ := by
        simpa only [List.forall_mem_append, List.forall_mem_cons] using tokens
      exact value.written rest

theorem Initializer.written {o : Option Stmt} (h : Initializer n ts o)
    (tokens : ∀ t ∈ ts, t ∈ all) : ∀ s ∈ o, ∀ x ∈ s.expressions, Written all x := by
  rintro s ⟨⟩
  cases h with
  | declaration _ rest => exact rest.written (List.forall_mem_cons.mp tokens).2
  | expression value => exact value.written (List.forall_mem_append.mp tokens).1

mutual

theorem Declaration.written {n : Nat} {f : Bool} {ts : List Token} {s : Stmt} :
    Declaration n f ts s → (∀ t ∈ ts, t ∈ all) → ∀ x ∈ s.expressions, Written all x
  | .varDecl _ rest, tokens => rest.written (List.forall_mem_cons.mp tokens).2
  | .funDecl _ _ _ _ _ _ _ inside _, tokens => by
      obtain ⟨⟨⟨-, -, -, -⟩, -, -, rest⟩, -⟩ : ((_ ∧ _ ∧ _ ∧ _) ∧ _ ∧ _ ∧ _) ∧ _ := by
        simpa only [List.forall_mem_append, List.forall_mem_cons] using tokens
      exact inside.written rest
  | .statement plain, tokens => plain.written tokens

theorem Statement.written {n : Nat} {f c : Bool} {ts : List Token} {s : Stmt} :
    Statement n f c ts s → (∀ t ∈ ts, t ∈ all) → ∀ x ∈ s.expressions, Written all x
  | .expression value _, tokens => value.written (List.forall_mem_append.mp tokens).1
  | .print _ value _, tokens => by
      obtain ⟨⟨-, rest⟩, -⟩ : (_ ∧ _) ∧ _ := by
        simpa only [List.forall_mem_append, List.forall_mem_cons] using tokens
      exact value.written rest
  | .block _ inside _, tokens => by
      obtain ⟨⟨-, rest⟩, -⟩ : (_ ∧ _) ∧ _ := by
        simpa only [List.forall_mem_append, List.forall_mem_cons] using tokens
      exact inside.written rest
  | .ifThen _ _ condition _ whenTrue, tokens => by
      obtain ⟨⟨-, -, test⟩, -, first⟩ : (_ ∧ _ ∧ _) ∧ _ ∧ _ := by
        simpa only [List.forall_mem_append, List.forall_mem_cons] using tokens
      exact List.forall_mem_append.mpr ⟨condition.written test, whenTrue.written first⟩
  | .ifElse _ _ condition _ whenTrue _ whenFalse, tokens => by
      obtain ⟨⟨⟨-, -, test⟩, -, first⟩, -, second⟩ : ((_ ∧ _ ∧ _) ∧ _ ∧ _) ∧ _ ∧ _ := by
        simpa only [List.forall_mem_append, List.forall_mem_cons] using tokens
      exact List.forall_mem_append.mpr ⟨List.forall_mem_append.mpr ⟨condition.written test,
        whenTrue.written first⟩, whenFalse.written second⟩
  | .whileLoop _ _ condition _ body, tokens => by
      obtain ⟨⟨-, -, test⟩, -, inside⟩ : (_ ∧ _ ∧ _) ∧ _ ∧ _ := by
        simpa only [List.forall_mem_append, List.forall_mem_cons] using tokens
      exact List.forall_mem_append.mpr ⟨condition.written test, body.written inside⟩
  | .forLoop _ _ initializer test _ increment _ body, tokens => by
      obtain ⟨⟨⟨⟨-, -, first⟩, condition⟩, -, step⟩, -, inside⟩ :
          (((_ ∧ _ ∧ _) ∧ _) ∧ _ ∧ _) ∧ _ ∧ _ := by
        simpa only [List.forall_mem_append, List.forall_mem_cons] using tokens
      exact Stmt.expressions_forLoop (initializer.written first) (test.written condition)
        .always (increment.written step) (body.written inside)
  | @Statement.returnStmt _ _ _ _ value _ _ result _, tokens => by
      obtain ⟨⟨-, rest⟩, -⟩ : (_ ∧ _) ∧ _ := by
        simpa only [List.forall_mem_append, List.forall_mem_cons] using tokens
      have parts := result.written rest
      cases value with
      | none => exact nofun
      | some e => exact parts e rfl

theorem Declarations.written {n : Nat} {f : Bool} {ts : List Token} {body : List Stmt} :
    Declarations n f ts body → (∀ t ∈ ts, t ∈ all) → ∀ x ∈ Stmt.allExpressions body, Written all x
  | .nil, _ => nofun
  | .cons head tail, tokens => by
      obtain ⟨first, rest⟩ := List.forall_mem_append.mp tokens
      exact List.forall_mem_append.mpr ⟨head.written first, tail.written rest⟩

end

theorem isOperator_of_strength? {kind : Token.Kind} {p : Precedence} (strength : strength? kind = some p)
    (or : p ≠ .or) (and : p ≠ .and) : kind.isOperator = true := by
  cases kind <;> cases strength <;> first | rfl | contradiction

theorem Phrase.from_tokens {n : Nat} {l : Level} {ts : List Token} {e : Expr} :
    Phrase n l ts e → (∀ t ∈ ts, t ∈ all) → e.From all
  | .tighter _ inner, tokens => inner.from_tokens tokens
  | .assign target _ _, tokens => ⟨tokens _ (.head _), target⟩
  | .operator _ strength _ _, tokens => by
      have member := tokens _ (List.mem_append_right _ (.head _))
      unfold joined
      split
      · trivial
      · rename_i binary
        exact ⟨member, isOperator_of_strength? strength (fun or => binary (.inl or))
          fun and => binary (.inr and)⟩
  | .unary sign _, tokens => by
      refine ⟨tokens _ (.head _), ?_⟩
      rcases sign with bang | minus
      · rw [bang]
        rfl
      · rw [minus]
        rfl
  | .call _ _ _ _ closes, tokens => ⟨tokens _ (List.mem_append_right _ (.head _)), closes⟩
  | .literal _, _ => trivial
  | .name identifier, tokens => ⟨tokens _ (.head _), identifier⟩
  | .grouping _ _ _, _ => trivial

theorem Written.from_tokens {x : Expr} (h : Written all x) : x.From all := by
  cases h with
  | phrase h tokens => exact h.from_tokens tokens
  | always => trivial

end Grammar

end Lox
