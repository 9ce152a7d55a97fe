import Lox.Proofs.Parser.Completeness.Expression

namespace Lox.Parser
open Grammar

theorem Phrase.variable_inv {n : Nat} {l : Level} {ts : List Token} {name : Token} :
    Phrase n l ts (.variable name) → ts = [name] ∧ name.kind = .identifier := by
  intro h
  induction n generalizing l ts with
  | zero => cases h
  | succ n ih =>
      generalize shape : Expr.variable name = e at h
      cases h with
      | tighter next inner => exact ih (shape ▸ inner)
      | name identifier => cases shape; exact ⟨rfl, identifier⟩
      | operator =>
          unfold joined at shape
          split at shape <;> cases shape
      | assign | unary | call | literal | grouping => cases shape

theorem Separated.arguments {n : Nat} {ts : List Token} {es : List Expr}
    (h : Separated (Phrase n .assignment) ts es) : Arguments n ts es := by
  induction h with
  | none => exact .none
  | last head => exact .last head
  | more head mark others ih => exact .more head mark ih

section
variable {n : Nat}

theorem primary_recognizes {inner : Parser Expr} (inside : Recognizes inner (Phrase n .assignment)) :
    Recognizes (primary inner) (Phrase (n + 1) .primary) := by
  intro s s' e h clean
  rw [primary] at h
  rcases branch_ok h with ⟨t, m, kind, reads, h⟩ | ⟨-, h⟩
  · obtain ⟨rfl, rfl⟩ := pure_ok.mp h
    exact ⟨[t], reads, .literal (by rw [constant?, kind])⟩
  rcases branch_ok h with ⟨t, m, kind, reads, h⟩ | ⟨-, h⟩
  · obtain ⟨rfl, rfl⟩ := pure_ok.mp h
    exact ⟨[t], reads, .literal (by rw [constant?, kind])⟩
  rcases branch_ok h with ⟨t, m, kind, reads, h⟩ | ⟨-, h⟩
  · obtain ⟨rfl, rfl⟩ := pure_ok.mp h
    exact ⟨[t], reads, .literal (by rw [constant?, kind])⟩
  rcases option_ok h with ⟨t, m, kind, reads, h⟩ | ⟨-, h⟩
  · obtain ⟨rfl, rfl⟩ := pure_ok.mp h
    refine ⟨[t], reads, .literal ?_⟩
    simp only [Bool.or_eq_true, beq_iff_eq] at kind
    rcases kind with kind | kind <;> rw [constant?, kind]
  rcases option_ok h with ⟨t, m, kind, reads, h⟩ | ⟨-, h⟩
  · obtain ⟨rfl, rfl⟩ := pure_ok.mp h
    exact ⟨[t], reads, .name (by simpa using kind)⟩
  rcases branch_ok h with ⟨opening, m, opens, opened, h⟩ | ⟨-, h⟩
  · obtain ⟨e, m', read, h⟩ := bind_ok.mp h
    obtain ⟨u, m'', closed, h⟩ := bind_ok.mp h
    obtain ⟨rfl, rfl⟩ := pure_ok.mp h
    obtain ⟨closing, closes, closed⟩ := expectMark_ok closed
    obtain ⟨ts, reads, phrase⟩ := inside _ _ _ read (closed.clean.mpr clean)
    exact ⟨_, (opened.cons reads).trans closed, .grouping opens phrase closes⟩
  · exact absurd h fail_ne_ok

theorem chainAfter_recognizes {p : Precedence} {operand : Parser Expr}
    (operands : Recognizes operand (Phrase n p.operand)) (bound : List Token) {left e : Expr}
    {s s' : State} (h : chainAfter p operand bound left s = .ok e s') (clean : s'.Clean) :
    ∃ ts, s.Reads ts s' ∧ ∀ us, Phrase (n + 1) (.chain p) us left →
      Phrase (n + 1) (.chain p) (us ++ ts) e := by
  induction bound generalizing left s with
  | nil =>
      obtain ⟨rfl, rfl⟩ := pure_ok.mp h
      exact ⟨[], .refl _, fun us phrase => by simpa using phrase⟩
  | cons t bound ih =>
      rw [chainAfter] at h
      rcases option_ok h with ⟨op, m, strength, operator, h⟩ | ⟨-, h⟩
      · obtain ⟨right, m', read, h⟩ := bind_ok.mp h
        obtain ⟨ts, others, grows⟩ := ih h
        obtain ⟨rs, reads, phrase⟩ := operands _ _ _ read (others.clean.mpr clean)
        refine ⟨op :: rs ++ ts, (operator.cons reads).trans others, fun us left => ?_⟩
        rw [join_eq] at grows
        have longer := grows _
          (.operator left (operators_iff.mp strength) (tighter?_chain p) phrase)
        simpa using longer
      · obtain ⟨rfl, rfl⟩ := pure_ok.mp h
        exact ⟨[], .refl _, fun us phrase => by simpa using phrase⟩

theorem callsAfter_recognizes {argument : Parser Expr}
    (arguments : Recognizes argument (Phrase n .assignment)) (bound : List Token) {f e : Expr}
    {s s' : State} (h : callsAfter argument bound f s = .ok e s') (clean : s'.Clean) :
    ∃ ts, s.Reads ts s' ∧ ∀ us, Phrase (n + 1) .call us f → Phrase (n + 1) .call (us ++ ts) e := by
  induction bound generalizing f s with
  | nil =>
      obtain ⟨rfl, rfl⟩ := pure_ok.mp h
      exact ⟨[], .refl _, fun us phrase => by simpa using phrase⟩
  | cons t bound ih =>
      rw [callsAfter] at h
      rcases branch_ok h with ⟨opening, m, opens, opened, h⟩ | ⟨-, h⟩
      · obtain ⟨args, m₁, listed, h⟩ := bind_ok.mp h
        obtain ⟨closing, m₂, closed, h⟩ := bind_ok.mp h
        obtain ⟨closes, closed⟩ := expect_ok closed
        obtain ⟨ts, others, grows⟩ := ih h
        obtain ⟨us, reads, items, few⟩ := commaList_recognizes arguments _ _ _ listed
          ((closed.trans others).clean.mpr clean)
        refine ⟨opening :: us ++ [closing] ++ ts,
          ((opened.cons reads).trans closed).trans others, fun vs callee => ?_⟩
        have longer := grows _ (.call callee opens items.arguments few closes)
        simpa using longer
      · obtain ⟨rfl, rfl⟩ := pure_ok.mp h
        exact ⟨[], .refl _, fun us phrase => by simpa using phrase⟩

end

theorem assignTo_ok {target value e : Expr} {equals : Token} {index : Nat} {s s' : State}
    (h : assignTo target equals index value s = .ok e s') (clean : s'.Clean) :
    ∃ name, target = .variable name ∧ e = .assign name value ∧ s' = s := by
  unfold assignTo at h
  split at h
  · obtain ⟨rfl, rfl⟩ := pure_ok.mp h
    exact ⟨_, rfl, rfl, rfl⟩
  · obtain ⟨u, m, noted, h⟩ := bind_ok.mp h
    obtain ⟨-, rfl⟩ := pure_ok.mp h
    exact absurd clean (note_unclean noted)

theorem expression_recognizes (n : Nat) (l : Level) : Recognizes (expression n l) (Phrase n l) := by
  induction n generalizing l with
  | zero =>
      intro s s' e h
      exact absurd h failTooDeep_ne_ok
  | succ n ih =>
      intro s s' e h clean
      rcases l with _ | p | _ | _ | _
      case assignment =>
        rw [expression] at h
        obtain ⟨target, m, read, h⟩ := bind_ok.mp h
        obtain ⟨index, m', look, h⟩ := bind_ok.mp h
        rw [position_eq] at look
        cases look
        rcases option_ok h with ⟨equals, m', mark, equal, h⟩ | ⟨-, h⟩
        · obtain ⟨value, m'', right, h⟩ := bind_ok.mp h
          obtain ⟨name, rfl, rfl, rfl⟩ := assignTo_ok h clean
          obtain ⟨us, others, assigned⟩ := ih _ _ _ _ right clean
          have reads := equal.cons others
          obtain ⟨ts, first, phrase⟩ := ih _ _ _ _ read (reads.clean.mpr clean)
          obtain ⟨rfl, identifier⟩ := Phrase.variable_inv phrase
          exact ⟨_, first.cons reads, .assign identifier (by simpa using mark) assigned⟩
        · obtain ⟨rfl, rfl⟩ := pure_ok.mp h
          obtain ⟨ts, reads, phrase⟩ := ih _ _ _ _ read clean
          exact ⟨ts, reads, .tighter rfl phrase⟩
      case chain =>
        rw [expression] at h
        obtain ⟨first, m, read, h⟩ := bind_ok.mp h
        obtain ⟨rest, m', look, h⟩ := bind_ok.mp h
        rw [remaining_eq] at look
        cases look
        obtain ⟨us, others, grows⟩ := chainAfter_recognizes (ih p.operand) _ h clean
        obtain ⟨ts, reads, phrase⟩ := ih _ _ _ _ read (others.clean.mpr clean)
        exact ⟨ts ++ us, reads.trans others, grows ts (.tighter (tighter?_chain p) phrase)⟩
      case unary =>
        rw [expression] at h
        rcases option_ok h with ⟨op, m, sign, signed, h⟩ | ⟨-, h⟩
        · obtain ⟨operand, m', read, h⟩ := bind_ok.mp h
          obtain ⟨rfl, rfl⟩ := pure_ok.mp h
          obtain ⟨ts, reads, phrase⟩ := ih _ _ _ _ read clean
          refine ⟨op :: ts, signed.cons reads, .unary ?_ phrase⟩
          revert sign
          cases op.kind <;> simp [isUnaryOperator]
        · obtain ⟨ts, reads, phrase⟩ := ih _ _ _ _ h clean
          exact ⟨ts, reads, .tighter rfl phrase⟩
      case call =>
        rw [expression] at h
        obtain ⟨callee, m, read, h⟩ := bind_ok.mp h
        obtain ⟨rest, m', look, h⟩ := bind_ok.mp h
        rw [remaining_eq] at look
        cases look
        obtain ⟨us, others, grows⟩ := callsAfter_recognizes (ih .assignment) _ h clean
        obtain ⟨ts, reads, phrase⟩ := ih _ _ _ _ read (others.clean.mpr clean)
        exact ⟨ts ++ us, reads.trans others, grows ts (.tighter rfl phrase)⟩
      case primary =>
        rw [expression] at h
        exact primary_recognizes (ih .assignment) s s' e h clean

end Lox.Parser
