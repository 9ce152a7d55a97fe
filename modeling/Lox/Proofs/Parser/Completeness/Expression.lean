import Lox.Parser.Expression
import Lox.Proofs.Grammar.Nesting
import Lox.Proofs.Parser.Reading

namespace Lox.Parser
open Grammar

theorem operators_iff {p : Precedence} {kind : Token.Kind} :
    p.operators kind = true ↔ strength? kind = some p := by
  cases p <;> cases kind <;> decide

theorem tighter?_chain (p : Precedence) : tighter? (.chain p) = some p.operand := by
  cases p <;> rfl

theorem join_eq (p : Precedence) (a : Expr) (op : Token) (b : Expr) :
    p.join a op b = joined p a op b := by
  cases p <;> rfl

theorem faces_operators {p : Precedence} {rest : List Token}
    (no : faces rest (continues (.chain p)) = false) : faces rest p.operators = false := by
  refine faces_mono (fun kind h => ?_) no
  rw [operators_iff] at h
  simp [continues, h]

theorem primary_literal {inner : Parser Expr} {t : Token} {v : Literal}
    (value : constant? t = some v) :
    Accepts (primary inner) [t] (.literal v) (fun _ => false) := by
  intro s s' reads _
  have rest := reads.rest
  revert value
  rw [constant?]
  cases kind : t.kind <;> intro value <;> cases value
  all_goals
    simp [primary, accept, accept?_eq, bind, EStateM.bind, rest, kind, pure, EStateM.pure]
    exact reads.same.symm

theorem primary_name {inner : Parser Expr} {t : Token} (kind : t.kind = .identifier) :
    Accepts (primary inner) [t] (.variable t) (fun _ => false) := by
  intro s s' reads _
  have rest := reads.rest
  simp [primary, accept, accept?_eq, bind, EStateM.bind, rest, kind, pure, EStateM.pure]
  exact reads.same.symm

theorem primary_grouping {inner : Parser Expr} {opening closing : Token} {ts : List Token}
    {e : Expr} {stop : Token.Kind → Bool} (opens : opening.kind = .leftParen)
    (inside : Accepts inner ts e stop) (ends : stop .rightParen = false)
    (closes : closing.kind = .rightParen) :
    Accepts (primary inner) (opening :: ts ++ [closing]) (.grouping e) (fun _ => false) := by
  intro s s' reads _
  obtain ⟨m, opened, reads⟩ := reads.uncons
  obtain ⟨m', read, closed⟩ := reads.split
  have look : ∀ kinds, faces s.rest kinds = kinds .leftParen := fun kinds => by
    rw [opened.faces, opens]
  have stops : faces m'.rest stop = false := by rw [closed.faces, closes, ends]
  rw [primary, bind_eq (accept_stays (look _)), if_neg Bool.false_ne_true,
    bind_eq (accept_stays (look _)), if_neg Bool.false_ne_true,
    bind_eq (accept_stays (look _)), if_neg Bool.false_ne_true,
    bind_eq (accept?_stays (look _))]
  dsimp only
  rw [bind_eq (accept?_stays (look _))]
  dsimp only
  rw [bind_eq (accept_reads opened opens), if_pos rfl, bind_eq (inside m m' read stops),
    bind_eq (expectMark_reads .rightParen closed closes)]
  rfl

theorem callsAfter_stops {argument : Parser Expr} {f : Expr} {s : State}
    (ends : faces s.rest (continues .call) = false) (bound : List Token) :
    callsAfter argument bound f s = .ok f s := by
  cases bound with
  | nil => rfl
  | cons t bound =>
      rw [callsAfter, bind_eq (accept_stays ends), if_neg Bool.false_ne_true]
      rfl

theorem chainAfter_stops {p : Precedence} {operand : Parser Expr} {left : Expr} {s : State}
    (ends : faces s.rest (continues (.chain p)) = false) (bound : List Token) :
    chainAfter p operand bound left s = .ok left s := by
  cases bound with
  | nil => rfl
  | cons t bound =>
      rw [chainAfter, bind_eq (accept?_stays (faces_operators ends))]
      rfl

theorem Arguments.separated {n : Nat} {ts : List Token} {es : List Expr} (h : Arguments n ts es) :
    Separated (Phrase n .assignment) ts es := by
  induction es generalizing ts with
  | nil =>
      cases h
      exact .none
  | cons e es ih =>
      cases h with
      | last item => exact .last item
      | more item mark others => exact .more item mark (ih others)

section
variable {n : Nat} (parts : ∀ l ts e, Phrase n l ts e → Accepts (expression n l) ts e (continues l))
include parts

/-- After the operators of a level that a derivation ends in, the loop over them is as it was
before the first, with the tree so far. -/
theorem chain_atLoop {p : Precedence} {ts : List Token} {e : Expr} {s m : State} :
    Phrase (n + 1) (.chain p) ts e → s.Reads ts m →
      faces m.rest (continues p.operand) = false →
      ∃ bound, m.rest.length ≤ bound.length ∧
        expression (n + 1) (.chain p) s =
          chainAfter p (expression n p.operand) bound e m
  | .tighter next inner, reads, ends => by
      rw [tighter?_chain] at next
      cases next
      refine ⟨m.rest, Nat.le_refl _, ?_⟩
      rw [expression, bind_eq (parts _ _ _ inner s m reads ends), bind_eq (remaining_eq m)]
  | .operator left strength next right, reads, ends => by
      obtain ⟨m₁, first, reads⟩ := reads.split
      obtain ⟨m₂, operator, second⟩ := reads.uncons
      rw [tighter?_chain] at next
      cases next
      -- The left operand is read up to the operator, which does not continue an operand of its level.
      have ends₁ : faces m₁.rest (continues p.operand) = false := by
        rw [operator.faces, continues_operator (tighter?_chain p) strength]
      obtain ⟨bound, room, eq⟩ := chain_atLoop left first ends₁
      cases bound with
      | nil =>
          rw [operator.rest] at room
          simp at room
      | cons t bound =>
          refine ⟨bound, ?_, ?_⟩
          · rw [operator.rest, second.rest] at room
            simp only [List.length_append, List.length_cons] at room
            omega
          · rw [eq, chainAfter, bind_eq (accept?_reads operator (operators_iff.mpr strength))]
            dsimp only
            rw [bind_eq (parts _ _ _ right m₂ m second ends), join_eq]
termination_by ts.length

theorem call_atLoop {ts : List Token} {e : Expr} {s m : State} :
    Phrase (n + 1) .call ts e → s.Reads ts m →
      ∃ bound, m.rest.length ≤ bound.length ∧
        expression (n + 1) .call s = callsAfter (expression n .assignment) bound e m
  | .tighter next inner, reads => by
      cases next
      refine ⟨m.rest, Nat.le_refl _, ?_⟩
      rw [expression, bind_eq (parts _ _ _ inner s m reads (by simp [faces, continues])),
        bind_eq (remaining_eq m)]
  | .call callee opens arguments few closes, reads => by
      obtain ⟨m₃, reads, closed⟩ := reads.split
      obtain ⟨m₁, first, reads⟩ := reads.split
      obtain ⟨m₂, opened, second⟩ := reads.uncons
      obtain ⟨bound, room, eq⟩ := call_atLoop callee first
      have list : commaList .argument (expression n .assignment) m₂ = .ok _ m₃ :=
        commaList_accepts rfl rfl (parts .assignment) (fun _ _ => Phrase.length_pos)
          (fun _ _ item => faces_disjoint item.begins fun kind => by cases kind <;> decide)
          (Arguments.separated arguments) few second (by simp [closed.faces, closes])
      cases bound with
      | nil =>
          rw [opened.rest] at room
          simp at room
      | cons t bound =>
          refine ⟨bound, ?_, ?_⟩
          · rw [opened.rest, second.rest, closed.rest] at room
            simp only [List.length_append, List.length_cons] at room
            omega
          · rw [eq, callsAfter, bind_eq (accept_reads opened opens), if_pos rfl, bind_eq list,
              bind_eq (expect_reads closed closes)]

end

theorem Phrase.accepts {n : Nat} {l : Level} {ts : List Token} {e : Expr} (h : Phrase n l ts e) :
    Accepts (expression n l) ts e (continues l) := by
  induction n generalizing l ts e with
  | zero => cases h
  | succ n ih =>
      have parts := fun l ts e (h : Phrase n l ts e) => ih h
      intro s s' reads ends
      rcases l with _ | p | _ | _ | _
      case assignment =>
        cases h with
        | tighter next inner =>
            cases next
            have noEqual : faces s'.rest (· == .equal) = false :=
              faces_mono (by simp +contextual [continues]) ends
            have ends' := faces_tighter (l := .assignment) rfl ends
            rw [expression, bind_eq (ih inner s s' reads ends'), bind_eq (position_eq s'),
              bind_eq (accept?_stays noEqual)]
            rfl
        | assign target mark value =>
            obtain ⟨m₁, first, reads⟩ := reads.uncons
            obtain ⟨m₂, equals, reads⟩ := reads.uncons
            have low := value.height_le
            have name : Phrase n (.chain .or) _ _ := .ofName target (by simp [height] at low ⊢; omega)
            have ends₁ : faces m₁.rest (continues (.chain .or)) = false := by
              rw [equals.faces, mark]
              rfl
            rw [expression, bind_eq (ih name s m₁ first ends₁), bind_eq (position_eq m₁),
              bind_eq (accept?_reads equals (by simp [mark]))]
            dsimp only
            rw [bind_eq (ih value m₂ s' reads ends)]
            rfl
      case chain =>
        obtain ⟨bound, -, eq⟩ :=
          chain_atLoop parts h reads (faces_tighter (tighter?_chain p) ends)
        rw [eq, chainAfter_stops ends]
      case unary =>
        cases h with
        | tighter next inner =>
            cases next
            have first := inner.beginsOperand (by decide)
            have unsigned : faces s.rest isUnaryOperator = false := by
              rw [reads.rest, faces_append first]
              exact faces_disjoint first fun kind => by cases kind <;> decide
            rw [expression, bind_eq (accept?_stays unsigned)]
            exact ih inner s s' reads ends
        | @unary _ op _ _ sign operand =>
            obtain ⟨m, first, reads⟩ := reads.uncons
            have signed : isUnaryOperator op.kind = true := by
              rcases sign with sign | sign <;> simp [isUnaryOperator, sign]
            rw [expression, bind_eq (accept?_reads first signed)]
            dsimp only
            rw [bind_eq (ih operand m s' reads ends)]
            rfl
      case call =>
        obtain ⟨bound, -, eq⟩ := call_atLoop parts h reads
        rw [eq, callsAfter_stops ends]
      case primary =>
        rw [expression]
        cases h with
        | tighter next inner => cases next
        | literal value => exact primary_literal value s s' reads ends
        | name identifier => exact primary_name identifier s s' reads ends
        | grouping opens inner closes =>
            exact primary_grouping opens (ih inner) rfl closes s s' reads ends

end Lox.Parser
